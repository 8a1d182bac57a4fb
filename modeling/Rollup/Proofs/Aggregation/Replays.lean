import Rollup.Proofs.Aggregation.Agreement
import Rollup.Proofs.Aggregation.Backlogs

/-!
# Catching up from the log

A replay that goes on from where the last one ended ingests what was recorded in the meantime and
neither retracted nor erased since (`replays_exactly_once`).
-/

namespace Rollup.Aggregation

open Ingest Ingestor Session

/-! ## Runs -/

namespace Session

theorem calls_append (t : Session) (cs : List Call) (c : Call) : t.calls (cs ++ [c]) = (t.calls cs).call c :=
  List.foldl_append

/-- The marker that the last replay among calls returned, -1 if there was none. -/
def mark (t : Session) (cs : List Call) : Int64 :=
  (cs.foldl (fun s c => (s.1.call c, advance s.2 c (s.1.reply c))) (t, (-1 : Int64))).2

theorem mark_append (t : Session) (cs : List Call) (c : Call) :
    t.mark (cs ++ [c]) = advance (t.mark cs) c ((t.calls cs).reply c) := by
  have first (start : Session × Int64) : (cs.foldl (fun s c => (s.1.call c, advance s.2 c (s.1.reply c))) start).1 =
      start.1.calls cs := by
    induction cs generalizing start with
    | nil => rfl
    | cons c rest ih => exact ih _
  rw [mark, List.foldl_append, List.foldl_cons, List.foldl_nil, first]
  rfl

/-- Every replay among calls goes on from the marker that the one before it returned. -/
def Follows (t : Session) (cs : List Call) : Prop :=
  ∀ before m rest, cs = before ++ .replay m :: rest → m = t.mark before

/-- Among calls a document was recorded under a marker, and since then there was no replay, no reset and no
retraction of that marker. -/
def Awaits (t : Session) (cs : List Call) (m : Int64) (d : Document) : Prop :=
  ∃ early between, cs = early ++ .record d :: between ∧ (t.calls early).reply (.record d) = .ok (.marker m) ∧
    .reset ∉ between ∧ .retract m ∉ between ∧ ∀ n, .replay n ∉ between

/-- A replay from a marker does what ingesting some documents does, one after the other. -/
def Reingests (t : Session) (marker : Int64) (docs : List Document) : Prop :=
  ∃ (high : Int64) (w : World), w.plan = t.2.plan ∧ w.events = t.2.events ∧ w.store = t.withLog ∧
    (replaySince marker).run t.1 t.2 =
      (do
        docs.forM fun d => ingest d
        return high : Action Report Aggregation Int64).run t.1 w

variable {t : Session} {cs : List Call} {c : Call} {m : Int64} {d : Document}

theorem Follows.of_append {rest : List Call} (follows : t.Follows (cs ++ rest)) : t.Follows cs := by
  rintro before m behind rfl
  exact follows before m (behind ++ rest) (List.append_assoc _ _ _)

theorem follows_append : t.Follows (cs ++ [c]) ↔ t.Follows cs ∧ ∀ m, c = .replay m → m = t.mark cs := by
  constructor
  · refine fun follows => ⟨follows.of_append, ?_⟩
    rintro m rfl
    exact follows cs m [] rfl
  · rintro ⟨follows, last⟩ before m rest split
    rcases List.eq_nil_or_concat rest with rfl | ⟨front, final, rfl⟩
    · obtain ⟨rfl, same⟩ := List.append_inj' split rfl
      exact last m (List.cons.inj same).1
    · rw [List.concat_eq_append, ← List.cons_append, ← List.append_assoc] at split
      obtain ⟨rfl, -⟩ := List.append_inj' split rfl
      exact follows before m front rfl

theorem awaits_append : t.Awaits (cs ++ [c]) m d ↔
    (t.Awaits cs m d ∧ c ≠ .reset ∧ c ≠ .retract m ∧ ∀ n, c ≠ .replay n) ∨
      c = .record d ∧ (t.calls cs).reply (.record d) = .ok (.marker m) := by
  constructor
  · rintro ⟨early, between, split, made, unreset, kept, unreplayed⟩
    rcases List.eq_nil_or_concat between with rfl | ⟨front, last, rfl⟩
    · -- The document was recorded by the last call.
      obtain ⟨rfl, same⟩ := List.append_inj' split rfl
      exact .inr ⟨(List.cons.inj same).1, made⟩
    · rw [List.concat_eq_append, ← List.cons_append, ← List.append_assoc] at split
      obtain ⟨rfl, same⟩ := List.append_inj' split rfl
      obtain rfl := (List.cons.inj same).1
      simp only [List.concat_eq_append, List.mem_append, List.mem_singleton, not_or] at unreset kept unreplayed
      exact .inl ⟨⟨early, front, rfl, made, unreset.1, kept.1, fun n => (unreplayed n).1⟩, fun same => unreset.2 same.symm,
        fun same => kept.2 same.symm, fun n same => (unreplayed n).2 same.symm⟩
  · rintro (⟨⟨early, between, rfl, made, unreset, kept, unreplayed⟩, noReset, noRetract, noReplay⟩ | ⟨rfl, made⟩)
    · refine ⟨early, between ++ [c], by rw [List.append_assoc, List.cons_append], made, ?_, ?_, fun n => ?_⟩
      all_goals simp only [List.mem_append, List.mem_singleton, not_or]
      · exact ⟨unreset, noReset.symm⟩
      · exact ⟨kept, noRetract.symm⟩
      · exact ⟨unreplayed n, (noReplay n).symm⟩
    · exact ⟨cs, [], rfl, made, List.not_mem_nil, List.not_mem_nil, fun n => List.not_mem_nil⟩

end Session

theorem mem_await {docs : List (Int64 × Document)} {c : Call} {r : Except (Failure Report) Reply} {m : Int64}
    {d : Document} : (m, d) ∈ await docs c r ↔
      ((m, d) ∈ docs ∧ c ≠ .reset ∧ c ≠ .retract m ∧ ∀ n, c ≠ .replay n) ∨ c = .record d ∧ r = .ok (.marker m) := by
  cases c with
  | ingest _ | uningest _ | commit | results | lookup _ | queued => simp [await]
  | record doc =>
    cases r with
    | error _ => simp [await]
    | ok reply =>
      cases reply with
      | marker n => simp [await, and_comm, @eq_comm _ m n, @eq_comm _ d doc]
      | done | rows _ | size _ | found _ => simp [await]
  | retract n => simp [await, @eq_comm _ m n]
  | replay n => simp [await]
  | reset => simp [await]

section Runs

variable {config : Config} (valid : config.validate = .ok ()) (chained : config.chainStore ≠ logName) {t : Session}

include valid chained

/-- What awaits the next replay after calls is what was recorded and awaits it. -/
theorem backlog_calls (resident : Resident config t) (start : Backlog t (-1) []) {cs : List Call}
    (follows : t.Follows cs) :
    ∃ docs, Backlog (t.calls cs) (t.mark cs) docs ∧ ∀ m d, (m, d) ∈ docs ↔ t.Awaits cs m d := by
  induction cs using List.reverseRecOn with
  | nil =>
    refine ⟨[], start, fun m d => ⟨fun mem => absurd mem List.not_mem_nil, ?_⟩⟩
    rintro ⟨early, between, none, -⟩
    exact absurd none.symm (by simp)
  | append_singleton cs c ih =>
    obtain ⟨docs, backlog, awaited⟩ := ih follows.of_append
    have here := resident.calls valid chained cs
    rw [calls_append, mark_append]
    refine ⟨_, backlog.of_does here (does valid chained here c) (follows_append.1 follows).2, fun m d => ?_⟩
    rw [mem_await, awaits_append, awaited]
    constructor
    · rintro (before | ⟨rfl, made⟩)
      · exact .inl before
      · exact .inr ⟨rfl, made⟩
    · rintro (before | ⟨rfl, made⟩)
      · exact .inl before
      · exact .inr ⟨rfl, made⟩

theorem nextMarker_calls (resident : Resident config t) (cs : List Call) :
    t.2.store.nextMarker ≤ (t.calls cs).2.store.nextMarker := by
  induction cs generalizing t with
  | nil => exact Nat.le_refl _
  | cons c rest ih =>
    have done := does valid chained resident c
    have next := (nextMarker_of_does done).1
    exact Nat.le_trans (next ▸ Nat.le_add_right _ _) (ih (resident.of_does done).1)

/-- Of two recorded documents the later one has the greater marker. -/
theorem marker_lt_of_later (resident : Resident config t) {early between : List Call} {d d' : Document} {m m' : Int64}
    (made : (t.calls early).reply (.record d) = .ok (.marker m))
    (made' : (t.calls (early ++ .record d :: between)).reply (.record d') = .ok (.marker m')) : m < m' := by
  have here := resident.calls valid chained early
  have done := does valid chained here (.record d)
  have split : t.calls (early ++ .record d :: between) = ((t.calls early).call (.record d)).calls between :=
    List.foldl_append
  obtain ⟨next, value⟩ := nextMarker_of_does done
  rw [made] at next value
  have grown := nextMarker_calls valid chained (here.of_does done).1 between
  rw [split] at made'
  have there := ((here.of_does done).1).calls valid chained between
  obtain ⟨-, value'⟩ := nextMarker_of_does (does valid chained there (.record d'))
  rw [made'] at value'
  rw [Int64.lt_iff_toInt_lt, value m (List.mem_singleton_self m), value' m' (List.mem_singleton_self m')]
  rw [next] at grown
  exact_mod_cast grown

/-- No two recorded documents have the same marker, so a document awaits the next replay by its own recording. -/
theorem awaits_iff (resident : Resident config t) {early between : List Call} {d : Document} {m : Int64}
    (made : (t.calls early).reply (.record d) = .ok (.marker m)) :
    t.Awaits (early ++ .record d :: between) m d ↔
      .reset ∉ between ∧ .retract m ∉ between ∧ ∀ n, .replay n ∉ between := by
  constructor
  · rintro ⟨early', between', split, made', rest⟩
    rcases List.append_eq_append_iff.1 split with ⟨front, rfl, same⟩ | ⟨front, rfl, same⟩
    · cases front with
      | nil =>
        obtain rfl := (List.cons.inj same).2
        exact rest
      | cons c front =>
        obtain rfl := (List.cons.inj same).1
        exact absurd (marker_lt_of_later valid chained resident made made') Int64.lt_irrefl
    · cases front with
      | nil =>
        obtain rfl := (List.cons.inj same).2
        exact rest
      | cons c front =>
        obtain rfl := (List.cons.inj same).1
        exact absurd (marker_lt_of_later valid chained resident made' made) Int64.lt_irrefl
  · exact fun rest => ⟨early, between, rfl, made, rest⟩

omit valid chained in
/-- A replay ingests what awaits it. -/
theorem Backlog.reingests {marker : Int64} {docs : List (Int64 × Document)} (backlog : Backlog t marker docs)
    (resident : Resident config t) : t.Reingests marker (docs.map Prod.snd) := by
  obtain ⟨w, never, events, store, replayed⟩ := run_replaySince t.1 resident.never marker
  have entries := appendedSince_eq t.2.store t.log marker
  rw [backlog.since] at entries
  have documents : (t.2.store.appendedSince t.log marker).map Prod.snd = docs.map Prod.snd := by
    rw [entries, List.map_map]
    rfl
  refine ⟨highWater marker (t.2.store.appendedSince t.log marker), w, never.trans resident.never.symm, events, store, ?_⟩
  rw [← documents]
  exact replayed

/-- An aggregation that was opened under a free name catches up exactly once.  If every replay goes on from
the marker that the one before returned, each ingests, once and in the order of recording, just those
recorded documents since whose recording there was no replay, no reset and no retraction of theirs. -/
theorem replays_exactly_once (name : String) {q : Query} {p : Pipeline} (compiled : q.compile = .ok p) {w : World}
    (never : w.plan = .never) (tree : w.store.Tree) (free : w.store.child? Store.root (.named name) = none) :
    ∃ t : Session, (openNamed config name q : Action Report Unit Aggregation).run () w = (.ok t.1, (), t.2) ∧
      ∀ cs : List Call, t.Follows cs → ∀ before m rest, cs = before ++ .replay m :: rest →
        ∃ docs : List (Int64 × Document), (t.calls before).Reingests m (docs.map Prod.snd) ∧
          docs.Pairwise (fun e e' => e.1 < e'.1) ∧
          (∀ n d, (n, d) ∈ docs → ∃ early between, before = early ++ .record d :: between ∧
            (t.calls early).reply (.record d) = .ok (.marker n)) ∧
          ∀ early d between n, before = early ++ .record d :: between →
            (t.calls early).reply (.record d) = .ok (.marker n) →
            ((n, d) ∈ docs ↔ .reset ∉ between ∧ .retract n ∉ between ∧ ∀ k, .replay k ∉ between) := by
  obtain ⟨i, w', ran, opened⟩ := run_openNamed_free valid chained name compiled () never tree free
  have resident : Resident config ({ name, pipeline := p, ingestor := i }, w') := .of_opened opened
  have start : Backlog ({ name, pipeline := p, ingestor := i }, w') (-1) [] :=
    .of_unmade (Nat.le_of_eq opened.logScope_eq.symm) (Int.lt_of_lt_of_le (by decide) (Int.natCast_nonneg _))
  refine ⟨({ name, pipeline := p, ingestor := i }, w'), ran, ?_⟩
  rintro cs follows before m rest rfl
  -- The backlog is what a replay from the last marker is due to ingest, and it is empty at the start.
  obtain ⟨docs, backlog, awaited⟩ := backlog_calls valid chained resident start follows.of_append
  have here := resident.calls valid chained before
  obtain rfl := follows before m rest rfl
  refine ⟨docs, backlog.reingests here, ?_, fun n d mem => ?_, ?_⟩
  · rw [← backlog.since]
    exact ascending_since backlog.ascending
  · obtain ⟨early, between, split, made, -⟩ := (awaited n d).1 mem
    exact ⟨early, between, split, made⟩
  · rintro early d between n rfl made
    rw [awaited]
    exact awaits_iff valid chained resident made

end Runs

/-- The second replay ingests neither what the first one did nor what was retracted in the meantime. -/
theorem replays_exactly_once_between :
    let q : Query := .alone (.brokenDownBy "a" "A")
    let x : Document := ⟨[("a", .text "x")]⟩
    let y : Document := ⟨[("a", .text "y")]⟩
    let z : Document := ⟨[("a", .text "z")]⟩
    let before : List Call := [.record x, .replay (-1), .record y, .retract 1, .record z]
    ∃ t : Session, (openNamed {} "n" q : Action Report Unit Aggregation).run () {} = (.ok t.1, (), t.2) ∧
      t.Follows (before ++ [.replay 0]) ∧
      ∃ docs : List (Int64 × Document), (t.calls before).Reingests 0 (docs.map Prod.snd) ∧
        (0, x) ∉ docs ∧ (1, y) ∉ docs ∧ (2, z) ∈ docs := by
  intro q x y z before
  obtain ⟨t, ran, replays⟩ := @replays_exactly_once {} rfl (by decide) "n" q _ rfl {} rfl Store.tree_fresh rfl
  have traced : (Session.fresh? {} "n" q).map (fun t =>
      (t.reply (.record x), (t.calls [.record x, .replay (-1)]).reply (.record y),
        (t.calls [.record x, .replay (-1), .record y, .retract 1]).reply (.record z), t.mark before)) =
      some (.ok (.marker 0), .ok (.marker 1), .ok (.marker 2), 0) := by cbv
  obtain ⟨t', opened, same⟩ := Option.map_eq_some_iff.1 traced
  obtain rfl := session_unique ran (run_openNamed_of_fresh? opened)
  obtain ⟨first, second, third, mark⟩ := by simpa only [Prod.mk.injEq] using same
  have follows : t.Follows (before ++ [.replay 0]) := by
    rintro early m rest split
    -- There are two replays.
    obtain ⟨_, rfl, ⟨rfl, rfl, -⟩ | ⟨rfl, rfl, -⟩⟩ := by simpa [before, List.cons_eq_append_iff] using split
    · rfl
    · exact mark.symm
  obtain ⟨docs, reingests, -, -, awaited⟩ := replays _ follows before 0 [] rfl
  refine ⟨t, ran, follows, docs, reingests, ?_, ?_, ?_⟩
  · rw [awaited [] x _ 0 rfl first]
    simp
  · rw [awaited [.record x, .replay (-1)] y _ 1 rfl second]
    simp
  · rw [awaited [.record x, .replay (-1), .record y, .retract 1] z _ 2 rfl third]
    simp

end Rollup.Aggregation
