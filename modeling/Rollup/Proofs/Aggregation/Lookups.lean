import Rollup.Proofs.Aggregation.Origins
import Rollup.Proofs.Boundaries
import Rollup.Proofs.Query
import Rollup.Proofs.Store.Scans

/-!
# Index lookups

A lookup scans the keys of the root stage that begin with the given values.  The index values of the events of a
bucket are the first parts of its key, so by at most as many values as there are indexes a lookup finds exactly
the buckets whose index values begin with them (`Engine.lookup_finds`).  More values are compared with the parts
of breakdowns too, and with the number of index parts at the end of a key (`Engine.lookup_beyond_indexes`).
-/

namespace Rollup

open Ingest

/-! ## Index values of a bucket -/

namespace Pipeline

variable {q : Query} {p : Pipeline} (compiled : q.compile = .ok p) {event : Document} {key : Key}

include compiled

theorem countP_isIndex_of_compile : p.root.maps.countP Verb.isIndex = q.clauses.countP Clause.isIndex := by
  obtain ⟨verbs, read, rfl⟩ := Query.exists_read_of_compile compiled
  have indexes := Clause.countP_isIndex_of_verbs read
  rw [← indexes]
  show (composition verbs).countP Verb.isIndex = _
  rw [Query.composition_of_read read]
  rfl

/-- The key of a bucket of the root begins with the index values of the events that go there. -/
theorem index_of_sends (sends : p.Sends event 0 key) :
    ∃ behind, key.parts = Verb.indexParts p.root.maps event ++ behind := by
  obtain ⟨verbs, read, rfl⟩ := Query.exists_read_of_compile compiled
  obtain ⟨kept, told⟩ := parts_of_sends sends
  have unchained : ∀ v ∈ composition verbs, v.isChained = false := by
    rw [Query.composition_of_read read]
    intro v mem
    rcases List.mem_cons.1 mem with rfl | mem
    · rfl
    · exact ((Clause.columns_of_verbs read).2.1 v mem).1
  have index := Verb.index_draft_eq unchained kept
  refine ⟨(Verb.draft (composition verbs) event).normal ++ (Verb.draft (composition verbs) event).marker, ?_⟩
  show key.parts = Verb.indexParts (composition verbs) event ++ _
  rw [told, Draft.parts, index, List.append_assoc]

/-- Among keys, few values are compared with index values only. -/
theorem prefix_iff_of_sends (sends : p.Sends event 0 key) {front : List KeyPart}
    (few : front.length ≤ q.clauses.countP Clause.isIndex) :
    front <+: key.parts ↔ front <+: Verb.indexParts p.root.maps event := by
  obtain ⟨behind, told⟩ := index_of_sends compiled sends
  have length := (Verb.length_indexParts p.root.maps event).trans (countP_isIndex_of_compile compiled)
  rw [told]
  exact ⟨fun begins => List.prefix_of_prefix_length_le begins (List.prefix_append _ _) (length ▸ few),
    fun begins => begins.trans (List.prefix_append _ _)⟩

end Pipeline

namespace Aggregation

open Ingestor Session

/-! ## The order of entries -/

/-- The entries of every scope stand in order. -/
abbrev Sorted (s : Store) : Prop := ∀ id, (s.buckets id).Sorted

section Order

variable {ε : Type} {chain : List Site}

theorem path_sorted : World.Path fun w v => Sorted w.store → Sorted v.store where
  quiet _ same sorted := same ▸ sorted
  trans first later sorted := later (first sorted)

theorem keeps_commit_sorted (workers : Nat) : (Ingest.commit workers chain).Keeps fun _ s => Sorted s := by
  refine .of_run fun qs w sorted => takes_commit path_sorted workers (fun site mem w v key doc plan store sorted => ?_)
    qs w sorted
  rw [store]
  exact Store.sorted_set sorted site.scope key doc

theorem keeps_push_sorted (which : Phase) (doc : Document) :
    (Ingestor.push which doc : Action ε Ingestor Unit).Keeps (Carries chain fun _ s => Sorted s) :=
  Ingestor.keeps_push keeps_commit_sorted which fun root _ =>
    .of_run fun qs w => ((takes_enqueue path_sorted root.stage which doc).zoom _ _) qs w

/-- A call that is no reset leaves the entries in order. -/
theorem keeps_perform_sorted {c : Call} (stays : c ≠ .reset) :
    (perform c).Keeps fun a s => Carries chain (fun _ s => Sorted s) a.ingestor s := by
  refine keeps_perform_of (Q := fun _ => True) (fun which doc => yields_onIngestor (keeps_push_sorted which doc))
    ((yields_onIngestor (Ingestor.keeps_commit keeps_commit_sorted)).mapError _) ?_ (fun log _ doc => ?_)
    (fun log _ key => ?_) c fun reset => absurd reset stays
  · refine Action.Keeps.of_run fun a w carries => ?_
    rcases run_openLog_cases a w with ⟨f, ran⟩ | ran <;> rw [ran]
    · exact carries
    · refine ⟨carries.sites, fun id => ?_⟩
      rw [Session.withLog, w.store.buckets_openChild]
      exact carries.holds id
  · refine .of_run fun a w carries => ?_
    rcases run_append_cases log doc a w with ⟨f, ran⟩ | ⟨m, s', appended, ran⟩ <;> rw [ran]
    · exact carries
    · exact ⟨carries.sites, Store.sorted_append carries.holds appended⟩
  · refine .of_run fun a w carries => ?_
    obtain ⟨w', -, ⟨f, -, store, ran⟩ | ⟨-, store, ran⟩⟩ := run_set log key none a w <;> rw [ran, store]
    · exact carries
    · exact ⟨carries.sites, Store.sorted_set carries.holds log key none⟩

theorem sorted_call {config : Config} (valid : config.validate = .ok ()) (chained : config.chainStore ≠ logName)
    {t : Session} (resident : Resident config t) (sorted : Sorted t.2.store) (c : Call) : Sorted (t.call c).2.store := by
  by_cases reset : c = .reset
  · subst reset
    obtain ⟨i, w', called, -, opened⟩ := resident.reset valid chained
    rw [called]
    intro id
    rw [opened.widened.buckets_eq]
    exact Store.sorted_deleteChild sorted _ _ id
  · exact (keeps_perform_sorted reset t.1 t.2 ⟨rfl, sorted⟩).1.holds

end Order

end Aggregation

open Aggregation

namespace Engine

/-- Whatever is done to an engine, the entries of every scope stand in order. -/
theorem sorted_acts (config : Config) (ds : List Deed) : Sorted (({ config } : Engine).acts ds).world.store := by
  refine ((sound_fresh config).acts_induction (p := fun e => Sorted e.world.store) Store.sorted_fresh
    fun e d _ sound sorted => ?_).2
  have effect := sound.effect d
  generalize e.act d = e' at effect ⊢
  cases effect with
  | opened _ _ _ _ _ widened =>
    intro id
    rw [widened.buckets_eq]
    exact sorted id
  | called _ valid chained _ resident => exact sorted_call valid chained resident sorted _
  | refused | absent => exact sorted

end Engine

/-! ## Lookups -/

theorem lookupKey?_of_scalars {values : List Value} (scalars : ∀ v ∈ values, (KeyPart.ofValue? v).isSome) :
    lookupKey? values = some ⟨values.filterMap KeyPart.ofValue?⟩ ∧
      (values.filterMap KeyPart.ofValue?).length = values.length := by
  have parts : values.mapM KeyPart.ofValue? = some (values.filterMap KeyPart.ofValue?) ∧
      (values.filterMap KeyPart.ofValue?).length = values.length := by
    induction values with
    | nil => exact ⟨rfl, rfl⟩
    | cons v rest ih =>
      obtain ⟨part, own⟩ := Option.isSome_iff_exists.1 (scalars v List.mem_cons_self)
      obtain ⟨later, length⟩ := ih fun u mem => scalars u (List.mem_cons_of_mem _ mem)
      rw [List.mapM_cons, own, later, List.filterMap_cons_some own, List.length_cons, List.length_cons, length]
      exact ⟨rfl, rfl⟩
  exact ⟨by rw [lookupKey?, parts.1]; rfl, parts.2⟩

namespace Engine

/-- A lookup finds the buckets whose index values begin with the given ones.  Whatever was done to an engine, a
lookup on an aggregation of a query with indexes returns, in key order and once each, the rows of the root
buckets whose keys begin with the parts of the given texts and numbers.  If these are no more than there are
indexes, those are exactly the buckets whose events have index values that begin with them.  And every bucket
has events, if the name of the aggregation was opened with its query only. -/
theorem lookup_finds {config : Config} {ds : List Deed} {e : Engine} (reached : ({ config } : Engine).acts ds = e)
    {i : Nat} {q : Query} {a : Aggregation} (opened : e.opened[i]? = some (q, a))
    (indexed : 0 < q.clauses.countP Clause.isIndex) {values : List Value}
    (scalars : ∀ v ∈ values, (KeyPart.ofValue? v).isSome) :
    let front := values.filterMap KeyPart.ofValue?
    let buckets := e.world.store.entries a.ingestor.rootScope
    ∃ found, Session.reply (a, e.world) (.lookup values) = .ok (.rows (rows found)) ∧ found.Sublist buckets ∧
      (buckets.Pairwise fun x y => compare x.1 y.1 = .lt) ∧
      (∀ x ∈ buckets, x ∈ found ↔ front <+: x.1.parts) ∧
      (values.length ≤ q.clauses.countP Clause.isIndex → ∀ x ∈ buckets, ∀ event, a.pipeline.Sends event 0 x.1 →
        (x ∈ found ↔ front <+: Verb.indexParts a.pipeline.root.maps event)) ∧
      ((∀ q', .opens a.name q' ∈ ds → q' = q) → ∀ x ∈ buckets, ∃ event, a.pipeline.Sends event 0 x.1) := by
  subst reached
  intro front buckets
  have sound := (sound_fresh config).acts ds
  have sorted := sorted_acts config ds
  obtain ⟨-, -, compiled, resident⟩ := sound.session opened
  obtain ⟨keyed, length⟩ := lookupKey?_of_scalars scalars
  have lookedUp : a.pipeline.isIndexed = true := by
    rw [← Pipeline.countP_isIndex_of_compile compiled, List.countP_pos_iff] at indexed
    exact List.any_eq_true.2 indexed
  have begins : ∀ x ∈ buckets, x ∈ buckets.filter (fun x => x.1.startsWith ⟨front⟩) ↔ front <+: x.1.parts := by
    intro x mem
    rw [List.mem_filter, Key.startsWith_iff]
    exact and_iff_right mem
  refine ⟨buckets.filter fun x => x.1.startsWith ⟨front⟩, ?_, List.filter_sublist, sorted _, begins, ?_, ?_⟩
  · obtain ⟨w, -, -, ran⟩ := run_lookup a resident.never values
    rw [Session.reply, perform, Action.run_bind, ran, found, lookedUp, keyed]
    exact congrArg (fun found => Except.ok (Reply.rows (rows found))) (Store.entriesUnder_eq_of_sorted (sorted _) ⟨front⟩)
  · intro few x mem event sends
    rw [begins x mem]
    exact Pipeline.prefix_iff_of_sends compiled sends (length ▸ few)
  -- What is stored below the name was made of events sent to this query, so a bucket has one of them.
  · intro alike x mem
    have roots := @roots_acts a.name q a.pipeline compiled config ds alike
    have own : a ∈ (({ config } : Engine).acts ds).opened.map Prod.snd :=
      List.mem_map.2 ⟨_, List.mem_of_getElem? opened, rfl⟩
    exact (roots.ofEvents own rfl x.1 x.2 ((sorted _).mem_toList_iff.1 mem)).exists_sends

/-- One of two events has the index value that is looked up. -/
theorem lookup_finds_one :
    let q : Query := .alone (.indexedBy "i")
    let ds : List Deed := [.opens "n" q, .calls 0 (.ingest ⟨[("i", .int 2)]⟩), .calls 0 (.ingest ⟨[("i", .int 1)]⟩),
      .calls 0 .commit]
    let e := ({} : Engine).acts ds
    ∃ a, e.opened[0]? = some (q, a) ∧ (e.world.store.entries a.ingestor.rootScope).length = 2 ∧
      ∃ found, Session.reply (a, e.world) (.lookup [.int 2]) = .ok (.rows (rows found)) ∧ found.length = 1 ∧
        ∀ x ∈ e.world.store.entries a.ingestor.rootScope, ∃ event, a.pipeline.Sends event 0 x.1 ∧
          (x ∈ found ↔ [.int 2] <+: Verb.indexParts a.pipeline.root.maps event) := by
  intro q ds e
  have traced : e.opened[0]?.map (fun qa => (qa.1, (e.world.store.entries qa.2.ingestor.rootScope).length,
      Session.reply (qa.2, e.world) (.lookup [.int 2]))) = some (q, 2, .ok (.rows [⟨1, ⟨[]⟩⟩])) := by cbv
  obtain ⟨⟨q', a⟩, opened, same⟩ := Option.map_eq_some_iff.1 traced
  obtain ⟨rfl, stored, replied⟩ := by simpa only [Prod.mk.injEq] using same
  obtain ⟨found, reply, -, -, -, few, sent⟩ := @lookup_finds {} ds e rfl 0 q a opened (by decide) [.int 2] (by decide)
  have single : (rows found).length = 1 := by
    rw [Reply.rows.inj (Except.ok.inj (reply.symm.trans replied))]
    rfl
  have alike : ∀ q', .opens a.name q' ∈ ds → q' = q := by
    intro q' mem
    exact (by simpa [ds] using mem : a.name = "n" ∧ q' = q).2
  refine ⟨a, opened, stored, found, reply, by rwa [rows, List.length_map] at single, fun x mem => ?_⟩
  obtain ⟨event, sends⟩ := sent alike x mem
  exact ⟨event, sends, few (by decide) x mem event sends⟩

/-- More values than there are indexes are compared with what stands behind the index values: one event has one
index value, 1, and is found by two values, since its key tells that it has one index value. -/
theorem lookup_beyond_indexes :
    let q : Query := .alone (.indexedBy "i")
    let event : Document := ⟨[("i", .int 1)]⟩
    let e := ({} : Engine).acts [.opens "n" q, .calls 0 (.ingest event), .calls 0 .commit]
    q.clauses.countP Clause.isIndex = 1 ∧
      ∃ a, e.opened[0]? = some (q, a) ∧
        Verb.indexParts a.pipeline.root.maps event = [.int 1] ∧
        Session.reply (a, e.world) (.lookup [.int 1, .int 1]) = .ok (.rows [⟨1, ⟨[]⟩⟩]) := by
  intro q event e
  have traced : e.opened[0]?.map (fun qa => (qa.1, Verb.indexParts qa.2.pipeline.root.maps event,
      Session.reply (qa.2, e.world) (.lookup [.int 1, .int 1]))) =
        some (q, [.int 1], .ok (.rows [⟨1, ⟨[]⟩⟩])) := by cbv
  obtain ⟨⟨q', a⟩, opened, same⟩ := Option.map_eq_some_iff.1 traced
  obtain ⟨rfl, parts, replied⟩ := by simpa only [Prod.mk.injEq] using same
  exact ⟨rfl, a, opened, parts, replied⟩

end Engine

end Rollup
