import Rollup.Proofs.Aggregation.Engines
import Rollup.Proofs.Aggregation.Lockstep

/-!
# Starting again

After a reset an aggregation answers as one of the same query that is opened on a new engine, whatever
was done before: only the markers of its log go on from where they were (`reset_starts_afresh`).
-/

namespace Rollup.Aggregation

open Ingest Ingestor Session

/-! ## Answers -/

/-- What a call returns when all markers have been handed out. -/
def exhausted : Except (Failure Report) Reply := .error (.error (.ofError .markersExhausted))

namespace Session

/-- What calls on a session return. -/
def replies (t : Session) : List Call → List (Except (Failure Report) Reply)
  | [] => []
  | c :: rest => t.reply c :: (t.call c).replies rest

/-- The marker of the start is known, and so are those that calls have returned. -/
def Knows (t : Session) (cs : List Call) (m : Int64) : Prop := m = -1 ∨ .ok (.marker m) ∈ t.replies cs

/-- Every call passes a marker that was known before it. -/
def Passes (t : Session) (cs : List Call) : Prop :=
  ∀ before c rest, cs = before ++ c :: rest → ∀ m, c.Passes m → t.Knows before m

/-- Where a document is recorded, there was a marker left. -/
theorem lt_of_served {config : Config} {t : Session} (resident : Resident config t) {d : Document}
    (served : t.reply (.record d) ≠ exhausted) : t.2.store.nextMarker < 2 ^ 63 := by
  by_contra full
  have marker : t.withLog.nextMarker = t.2.store.nextMarker := t.2.store.nextMarker_openChild _ _
  have none : t.withLog.append? t.log d = none := if_neg (marker ▸ full)
  obtain ⟨w, -, -, ran⟩ := run_record_exhausted t.1 resident.never none
  apply served
  rw [Session.reply, perform, Action.run_bind, ran]
  rfl

end Session

/-! ## Counting from a marker -/

/-- Markers counted from one on; those before it stay. -/
def countedFrom (base : Nat) (m : Int64) : Int64 := Int64.ofInt (if m.toInt < base then m.toInt else m.toInt - base)

theorem countedFrom_start (base : Nat) : countedFrom base (-1) = -1 := by
  have before : (-1 : Int64).toInt < base := Int.lt_of_lt_of_le (by decide) (Int.natCast_nonneg base)
  rw [countedFrom, if_pos before]
  rfl

theorem countedFrom_next {base n : Nat} (left : base + n < 2 ^ 63) :
    countedFrom base (Int64.ofNat (base + n)) = Int64.ofNat n := by
  rw [countedFrom, Int64.toInt_ofNat_of_lt left, if_neg (by omega)]
  have value : ((base + n : Nat) : Int) - base = n := by omega
  rw [value]
  rfl

theorem handed_rename (ren : Int64 → Int64) (c : Call) (r : Except (Failure Report) Reply) :
    handed (c.rename ren) (r.map (Reply.rename ren)) = (handed c r).map ren := by
  cases c with
  | record d =>
    rcases r with _ | (_ | _ | _ | _ | _) <;> rfl
  | ingest _ | uningest _ | commit | results | lookup _ | queued | retract _ | replay _ | reset => rfl

section Runs

variable {config : Config} (valid : config.validate = .ok ()) (chained : config.chainStore ≠ logName) {base : Nat}
  {known : List Int64} {t t' : Session}

include valid chained

/-- Sessions that are alike return the same to the same calls, if one hands out its markers as many behind
the other as the renaming says. -/
theorem replies_rename (alike : Alike config (countedFrom base) known t t')
    (behind : t.2.store.nextMarker = base + t'.2.store.nextMarker) {cs : List Call}
    (passes : ∀ before c rest, cs = before ++ c :: rest → ∀ m, c.Passes m →
      m ∈ -1 :: known ∨ .ok (.marker m) ∈ t.replies before)
    (served : exhausted ∉ t.replies cs) :
    t'.replies (cs.map (Call.rename (countedFrom base))) =
        (t.replies cs).map (Except.map (Reply.rename (countedFrom base))) ∧
      ∃ known', (∀ m ∈ known, m ∈ known') ∧ (∀ m, .ok (.marker m) ∈ t.replies cs → m ∈ -1 :: known') ∧
        ∀ m ∈ -1 :: known', ∀ n ∈ -1 :: known', m < n → countedFrom base m < countedFrom base n := by
  -- Both sessions go on alike; the distance of their markers stays, since they hand out equally many.
  induction cs generalizing known t t' with
  | nil => exact ⟨rfl, known, fun m mem => mem, fun m mem => absurd mem List.not_mem_nil, alike.renames.mono⟩
  | cons c rest ih =>
    have passesFirst : ∀ m, c.Passes m → m ∈ -1 :: known := fun m pass =>
      (passes [] c rest rfl m pass).resolve_right List.not_mem_nil
    have agrees := alike.agrees valid chained c passesFirst (by
      rintro d rfl
      have left := lt_of_served alike.resident (fun same => served (same ▸ List.mem_cons_self))
      refine ⟨left, by omega, ?_⟩
      rw [behind] at left ⊢
      exact countedFrom_next left)
    have grown : ∀ m ∈ -1 :: known, m ∈ -1 :: (known ++ handed c (t.reply c)) :=
      List.cons_subset_cons _ (List.subset_append_left _ _)
    have behind' : (t.call c).2.store.nextMarker =
        base + (t'.call (c.rename (countedFrom base))).2.store.nextMarker := by
      have next := (nextMarker_of_does (does valid chained alike.resident c)).1
      have next' := (nextMarker_of_does (does valid chained alike.resident' (c.rename (countedFrom base)))).1
      rw [agrees.same, handed_rename, List.length_map] at next'
      omega
    obtain ⟨same, known', more, returned, mono⟩ := ih agrees.alike behind' (by
      rintro before c' behind rfl m pass
      rcases passes (c :: before) c' behind rfl m pass with old | new
      · exact .inl (grown m old)
      · rcases List.mem_cons.1 new with first | later
        · exact .inl (agrees.returned m first.symm)
        · exact .inr later) (fun mem => served (List.mem_cons_of_mem _ mem))
    refine ⟨?_, known', fun m mem => more m (List.mem_append_left _ mem), fun m mem => ?_, mono⟩
    · rw [List.map_cons, replies, agrees.same, same]
      rfl
    · rcases List.mem_cons.1 mem with first | later
      · rcases List.mem_cons.1 (agrees.returned m first.symm) with start | new
        · exact start ▸ List.mem_cons_self
        · exact List.mem_cons_of_mem _ (more m new)
      · exact returned m later

end Runs

/-- A reset aggregation starts afresh.  Whatever was done to an engine, an aggregation that is reset has no
entry queued, and while there are markers left every call on it returns what it does on an aggregation of
the same query that is opened on a new engine, with the markers that are returned and passed renamed in
their order. -/
theorem reset_starts_afresh {config : Config} {past : List Deed} {i : Nat} {q : Query} {a : Aggregation} {w : World}
    (world : (({ config } : Engine).acts past).world = w)
    (opened : (({ config } : Engine).acts past).opened[i]? = some (q, a)) :
    let t := Session.call (a, w) .reset
    Session.reply (a, w) .reset = .ok .done ∧ (∀ waiting ∈ t.1.ingestor.queues, waiting = {}) ∧
      ∃ fresh : Session, (openNamed config a.name q : Action Report Unit Aggregation).run () {} = (.ok fresh.1, (), fresh.2) ∧
        ∀ cs, t.Passes cs → exhausted ∉ t.replies cs →
          ∃ ren : Int64 → Int64, ren (-1) = -1 ∧
            (∀ m n, t.Knows cs m → t.Knows cs n → m < n → ren m < ren n) ∧
            fresh.replies (cs.map (Call.rename ren)) = (t.replies cs).map (Except.map (Reply.rename ren)) := by
  subst world
  intro t
  obtain ⟨valid, chained, compiled, resident⟩ := ((Engine.sound_fresh config).acts past).session opened
  rw [Engine.config_acts] at valid chained resident
  obtain ⟨j, v, ran, opened'⟩ := run_reset resident.config valid chained resident.never resident.tree
  obtain ⟨k, u, ran', fresh⟩ := run_openNamed_free valid chained a.name compiled () (w := {}) rfl Store.tree_fresh rfl
  have performed : (perform .reset).run a (({ config } : Engine).acts past).world = (.ok .done, { a with ingestor := j }, v) := by
    rw [perform, Action.run_bind, ran]
    rfl
  have reset : t = ({ a with ingestor := j }, v) := congrArg Prod.snd performed
  refine ⟨congrArg Prod.fst performed, ?_, ({ name := a.name, pipeline := a.pipeline, ingestor := k }, u), ran', ?_⟩
  · rw [reset]
    intro waiting mem
    change waiting ∈ j.queues at mem
    rw [opened'.queues] at mem
    obtain ⟨-, -, empty⟩ := List.mem_map.1 mem
    exact empty.symm
  · rw [reset]
    intro cs passes served
    have alike : Alike config (countedFrom v.store.nextMarker) [] ({ a with ingestor := j }, v)
        ({ name := a.name, pipeline := a.pipeline, ingestor := k }, u) :=
      alike_of_opened rfl rfl opened' fresh (.nil (countedFrom_start v.store.nextMarker))
    -- The new engine hands out its markers from zero on.
    have behind : v.store.nextMarker = v.store.nextMarker + u.store.nextMarker := by
      rw [fresh.widened.marker]
      rfl
    obtain ⟨same, known, -, returned, mono⟩ := replies_rename valid chained alike behind (by
      intro before c rest split m pass
      rcases passes before c rest split m pass with rfl | given
      · exact .inl List.mem_cons_self
      · exact .inr given) served
    have knows : ∀ m, Session.Knows ({ a with ingestor := j }, v) cs m → m ∈ -1 :: known := fun m knows =>
      knows.elim (fun start => start ▸ List.mem_cons_self) (returned m)
    exact ⟨countedFrom v.store.nextMarker, countedFrom_start _, fun m n m' n' => mono m (knows m m') n (knows n n'), same⟩

/-- An aggregation is reset with an entry queued and a document logged, beside another one that has one
logged.  What is recorded then has marker 2, where a new engine has 0, and is all that is queued. -/
theorem reset_starts_afresh_beside :
    let config : Config := { commitThreshold := 0 }
    let q : Query := .alone (.brokenDownBy "a" "A")
    let x : Document := ⟨[("a", .text "x")]⟩
    let y : Document := ⟨[("a", .text "y")]⟩
    let past : List Deed :=
      [.opens "n" q, .opens "m" q, .calls 0 (.record x), .calls 0 .commit, .calls 1 (.record y), .calls 0 (.ingest y)]
    let cs : List Call := [.record y, .queued, .replay (-1), .retract 2, .commit]
    ∃ a, (({ config } : Engine).acts past).opened[0]? = some (q, a) ∧ a.queued = 1 ∧
      let t := Session.call (a, (({ config } : Engine).acts past).world) .reset
      t.Passes cs ∧ exhausted ∉ t.replies cs ∧
      ∃ (fresh : Session) (ren : Int64 → Int64),
        (openNamed config "n" q : Action Report Unit Aggregation).run () {} = (.ok fresh.1, (), fresh.2) ∧
          fresh.replies [.record y, .queued, .replay (-1), .retract (ren 2), .commit] =
            [.ok (.marker (ren 2)), .ok (.size 1), .ok (.marker (ren 2)), .ok (.found true), .ok .done] := by
  intro config q x y past cs
  -- Both aggregations and the calls after the reset are run at once.
  have traced : ((({ config } : Engine).acts past).opened[0]?).map (fun qa => (qa.1, qa.2.name, qa.2.queued,
      (Session.call (qa.2, (({ config } : Engine).acts past).world) .reset).replies cs)) =
      some (q, "n", 1, [.ok (.marker 2), .ok (.size 1), .ok (.marker 2), .ok (.found true), .ok .done]) := by cbv
  obtain ⟨⟨q', a⟩, opened, same⟩ := Option.map_eq_some_iff.1 traced
  obtain ⟨rfl, name, queued, replies⟩ := by simpa only [Prod.mk.injEq] using same
  have passes : (Session.call (a, (({ config } : Engine).acts past).world) .reset).Passes cs := by
    rintro before c rest split m (rfl | rfl)
    · obtain ⟨rfl, rfl, -⟩ := by simpa [cs, List.cons_eq_append_iff] using split
      exact .inr ((List.cons.inj replies).1 ▸ List.mem_cons_self)
    · obtain ⟨rfl, rfl, -⟩ := by simpa [cs, List.cons_eq_append_iff] using split
      exact .inl rfl
  have served : exhausted ∉ (Session.call (a, (({ config } : Engine).acts past).world) .reset).replies cs := by
    rw [replies]
    simp [exhausted]
  obtain ⟨-, -, fresh, ran, answers⟩ := reset_starts_afresh rfl opened
  obtain ⟨ren, start, -, renamed⟩ := answers cs passes served
  refine ⟨a, opened, queued, passes, served, fresh, ren, name ▸ ran, ?_⟩
  have passed : cs.map (Call.rename ren) = [.record y, .queued, .replay (-1), .retract (ren 2), .commit] := by
    simp [cs, Call.rename, start]
  rw [replies, passed] at renamed
  exact renamed

end Rollup.Aggregation
