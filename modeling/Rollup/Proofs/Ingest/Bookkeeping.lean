import Rollup.Ingest.Cycle
import Rollup.Proofs.Ingest.Processing
import Rollup.Proofs.Metrics

/-!
# How commits keep the books

What a computation enters in the books does not depend on the queues or on what is stored, so it is told
by a relation between the books before, the way in which the computation ends and the books after
(`Action.Enters`), and such relations compose as computations do.

Whatever the store refuses, a commit hands on a document for every document that is due, ends the cycles
that it starts, and reports as many keys as it touched (`enters_commit`).
-/

namespace Rollup

open Ingest

/-- The books of the events so far. -/
def World.books (w : World) : Books := .ofEvents w.events.toList

theorem World.books_record (w : World) (e : Event) : (w.record e).books = w.books.enter e := by
  rw [books, record, Array.toList_push, Books.ofEvents_append_singleton]
  rfl

/-! ## Entries -/

namespace Books

/-- The documents that callers have brought. -/
def intake (b : Books) : Int := b.docs - b.forwarded

/-- The documents that the stages before the one with number `n` have yet to hand on. -/
def arrears (n : Nat) (b : Books) : Int := b.due n - b.forwarded

/-- Books with more documents that came to a stage. -/
def bring (k : Nat) (b : Books) : Books := { b with docs := b.docs + k }

/-- The innermost cycle has touched `k` more keys, and `a` more documents are yet to be handed on. -/
structure Entered (n k : Nat) (a : Int) (b b' : Books) : Prop where
  intake : b'.intake = b.intake
  arrears : b'.arrears n = b.arrears n + a
  underway : b'.underway = b.underway.modifyHead (· + k)
  honest : b.honest = true → b'.honest = true

section Entered

variable {n k k' : Nat} {a a' : Int} {b b' b'' : Books}

theorem Entered.refl (n : Nat) (b : Books) : Entered n 0 0 b b where
  intake := rfl
  arrears := (Int.add_zero _).symm
  underway := by cases b.underway <;> rfl
  honest := id

theorem Entered.trans (first : Entered n k a b b') (second : Entered n k' a' b' b'') :
    Entered n (k + k') (a + a') b b'' where
  intake := second.intake.trans first.intake
  arrears := by rw [second.arrears, first.arrears, Int.add_assoc]
  underway := by
    rw [second.underway, first.underway]
    cases b.underway with
    | nil => rfl
    | cons m rest => exact congrArg (· :: rest) (Nat.add_assoc m k k')
  honest honest := second.honest (first.honest honest)

theorem Entered.length (entered : Entered n k a b b') : b'.underway.length = b.underway.length := by
  rw [entered.underway, List.length_modifyHead]

/-- The documents that revisions make for the stage behind, if there is one. -/
def share (n : Nat) (b : Books) (rs : List Revision) : Int := if b.underway.length < n then weight rs else 0

/-- The revisions of some buckets have been entered, and what they make for the stage behind is due. -/
def Noted (n : Nat) (rs : List Revision) (b b' : Books) : Prop := Entered n rs.length (b.share n rs) b b'

theorem Noted.of_entered (entered : Entered n 0 0 b b') : Noted n [] b b' := by
  rw [Noted, share, weight, Nat.cast_zero, ite_self]
  exact entered

theorem Noted.refl (n : Nat) (b : Books) : Noted n [] b b := .of_entered (.refl n b)

theorem weight_append (front back : List Revision) : weight (front ++ back) = weight front + weight back := by
  induction front with
  | nil => exact (Nat.zero_add _).symm
  | cons r rest ih => rw [List.cons_append, weight, weight, ih, Nat.add_assoc]

theorem share_append (n : Nat) (b : Books) (front back : List Revision) :
    b.share n (front ++ back) = b.share n front + b.share n back := by
  rw [share, share, share, weight_append]
  split
  · exact Nat.cast_add _ _
  · rfl

theorem weight_perm {rs rs' : List Revision} (perm : rs.Perm rs') : weight rs = weight rs' := by
  induction perm with
  | nil => rfl
  | cons r _ ih => rw [weight, weight, ih]
  | swap r s rest =>
    simp only [weight]
    omega
  | trans _ _ first second => exact first.trans second

theorem share_perm {rs rs' : List Revision} (perm : rs.Perm rs') (n : Nat) (b : Books) :
    b.share n rs = b.share n rs' := by
  rw [share, share, weight_perm perm]

theorem Entered.share (entered : Entered n k a b b') (rs : List Revision) : b'.share n rs = b.share n rs := by
  rw [Books.share, Books.share, entered.length]

theorem Noted.trans {rs rs' : List Revision} (first : Noted n rs b b') (second : Noted n rs' b' b'') :
    Noted n (rs ++ rs') b b'' := by
  rw [Noted, Entered.share first] at second
  rw [Noted, List.length_append, share_append]
  exact Entered.trans first second

end Entered

end Books

/-- A revision makes as many documents for the stage behind as its outcome tells. -/
def Ingest.Revision.Fair (r : Revision) : Prop := r.outcome.documents = weight [r]

theorem Ingest.Revision.Fair.noted {r : Revision} (fair : r.Fair) (n : Nat) (b : Books) :
    b.Noted n [r] (b.enter (.key r.outcome)) := by
  have documents : r.outcome.documents = weight [r] := fair
  have touched : r.outcome ≠ .skipped := by
    intro skipped
    rw [skipped, weight] at documents
    split at documents <;> cases documents
  have same : (b.enter (.key r.outcome)).forwarded = b.forwarded ∧
      (b.enter (.key r.outcome)).docs = b.docs ∧ (b.enter (.key r.outcome)).honest = b.honest ∧
      (b.enter (.key r.outcome)).underway = b.underway.modifyHead (· + 1) := by
    cases outcome : r.outcome with
    | skipped => exact absurd outcome touched
    | inserted | merged | unreduced => exact ⟨rfl, rfl, rfl, rfl⟩
  obtain ⟨forwarded, docs, honest, underway⟩ := same
  refine ⟨by rw [Books.intake, Books.intake, docs, forwarded], ?_, underway, fun kept => honest.trans kept⟩
  rw [Books.arrears, Books.arrears, Books.due_key, Books.share, forwarded, documents]
  split <;> push_cast <;> omega

/-! ## Computations -/

namespace Action

variable {ε δ σ τ α β : Type}

/-- However a computation ends where the store does not crash, it relates the books so. -/
def Enters (act : Action ε σ α) (R : Books → Except (Failure ε) α → Books → Prop) : Prop :=
  ∀ (l : σ) (w : World), w.plan.Civil →
    (act.run l w).2.2.plan = w.plan ∧ R w.books (act.run l w).1 (act.run l w).2.2.books

variable {act : Action ε σ α} {R S : Books → Except (Failure ε) α → Books → Prop}

theorem Enters.mono (enters : act.Enters R) (weaker : ∀ b r b', R b r b' → S b r b') : act.Enters S :=
  fun l w civil => (enters l w civil).imp_right (weaker _ _ _)

/-- Nothing is entered, and nothing crashes. -/
def Silent (b : Books) (r : Except (Failure ε) α) (b' : Books) : Prop := r ≠ .error .crash ∧ b' = b

/-- Nothing is entered, and nothing fails. -/
def Smooth (b : Books) (r : Except (Failure ε) α) (b' : Books) : Prop := (∃ x, r = .ok x) ∧ b' = b

theorem smooth_modifyLocal (f : σ → σ) : (modifyLocal f : Action ε σ Unit).Enters Smooth :=
  fun _ _ _ => ⟨rfl, ⟨_, rfl⟩, rfl⟩

theorem silent_pure (x : α) : (pure x : Action ε σ α).Enters Silent := fun _ _ _ => ⟨rfl, nofun, rfl⟩

theorem silent_getWorld : (getWorld : Action ε σ World).Enters Silent := fun _ _ _ => ⟨rfl, nofun, rfl⟩

theorem enters_pure (x : α) : (pure x : Action ε σ α).Enters fun b r b' => r = .ok x ∧ b' = b :=
  fun _ _ _ => ⟨rfl, rfl, rfl⟩

theorem Enters.of_pure {x : α} (holds : ∀ b, R b (.ok x) b) : (pure x : Action ε σ α).Enters R :=
  fun _ _ _ => ⟨rfl, holds _⟩

theorem enters_fail (f : Failure ε) : (fail f : Action ε σ α).Enters fun b r b' => r = .error f ∧ b' = b :=
  fun _ _ _ => ⟨rfl, rfl, rfl⟩

theorem enters_record (e : Event) :
    (record e : Action ε σ Unit).Enters fun b r b' => r = .ok () ∧ b' = b.enter e :=
  fun _ w _ => ⟨rfl, rfl, w.books_record e⟩

theorem Enters.bind {next : α → Action ε σ β} {T : α → Books → Except (Failure ε) β → Books → Prop}
    (first : act.Enters R) (second : ∀ x, (next x).Enters (T x)) :
    (act >>= next).Enters fun b r b' =>
      (∃ x m, R b (.ok x) m ∧ T x m r b') ∨ ∃ f, R b (.error f) b' ∧ r = .error f := by
  intro l w civil
  have begun := first l w civil
  rw [run_bind]
  revert begun
  rcases act.run l w with ⟨f | x, m, v⟩ <;> rintro ⟨plan, entered⟩
  · exact ⟨plan, .inr ⟨f, entered, rfl⟩⟩
  · obtain ⟨plan', entered'⟩ := second x m v (plan ▸ civil)
    exact ⟨plan'.trans plan, .inl ⟨x, _, entered, entered'⟩⟩

/-- A computation after an event. -/
theorem Enters.after_record (e : Event) {next : Unit → Action ε σ α} (second : (next ()).Enters R) :
    (record e >>= next).Enters fun b r b' => R (b.enter e) r b' := by
  intro l w civil
  have later := second l (w.record e) civil
  rwa [World.books_record] at later

/-- A computation after one that enters nothing. -/
theorem Enters.after {next : α → Action ε σ β} {T : Books → Except (Failure ε) β → Books → Prop}
    (first : act.Enters Silent) (second : ∀ x, (next x).Enters T) (stops : ∀ b e, T b (.error (.error e)) b) :
    (act >>= next).Enters T := by
  refine (first.bind second).mono ?_
  rintro b r b' (⟨x, m, ⟨-, rfl⟩, entered⟩ | ⟨f, ⟨ends, rfl⟩, rfl⟩)
  · exact entered
  · cases f with
    | error e => exact stops _ e
    | crash => exact absurd rfl ends

/-- A computation after one that enters nothing and does not fail. -/
theorem Enters.then {next : α → Action ε σ β} {T : Books → Except (Failure ε) β → Books → Prop}
    (first : act.Enters Smooth) (second : ∀ x, (next x).Enters T) : (act >>= next).Enters T := by
  refine (first.bind second).mono ?_
  rintro b r b' (⟨x, m, ⟨-, rfl⟩, entered⟩ | ⟨f, ⟨⟨x, wrong⟩, -⟩, -⟩)
  · exact entered
  · cases wrong

/-- A computation after one whose failure it is told. -/
theorem Enters.attempt_bind {next : Except (Failure ε) α → Action δ σ β}
    {T : Except (Failure ε) α → Books → Except (Failure δ) β → Books → Prop} (first : act.Enters R)
    (second : ∀ ended, (next ended).Enters (T ended)) :
    (Action.attempt act >>= next).Enters fun b r b' => ∃ ended m, R b ended m ∧ T ended m r b' := by
  intro l w civil
  obtain ⟨plan, entered⟩ := first l w civil
  obtain ⟨plan', entered'⟩ := second (act.run l w).1 (act.run l w).2.1 (act.run l w).2.2 (plan.symm ▸ civil)
  rw [run_bind, run_attempt]
  exact ⟨plan'.trans plan, _, _, entered, entered'⟩

theorem Enters.zoom {act : Action ε τ α} (enters : act.Enters R) (view : σ → τ) (update : τ → σ → σ) :
    (act.zoom view update).Enters R := fun l w civil => enters (view l) w civil

end Action

namespace Ingest

open Rollup.Action Books

variable {ε σ : Type}

/-! ## Groups -/

theorem silent_call (kind : CallKind) (scope : ScopeId) (key? : Option Key) :
    (Access.call kind scope key? : Action Error σ Unit).Enters Silent := by
  intro l w civil
  rcases run_call kind scope key? l w with ⟨f, failing, ran⟩ | ⟨-, ran⟩
  · rw [ran]
    refine ⟨rfl, fun crash => ?_, rfl⟩
    cases crash
    exact civil _ _ failing
  · rw [ran]
    exact ⟨rfl, nofun, rfl⟩

theorem silent_get? (scope : ScopeId) (key : Key) : (Access.get? scope key : Action Error σ _).Enters Silent :=
  (silent_call .get scope (some key)).after
    (fun _ => silent_getWorld.after (fun _ => silent_pure _) fun _ _ => ⟨nofun, rfl⟩) fun _ _ => ⟨nofun, rfl⟩

theorem silent_set (scope : ScopeId) (key : Key) (doc : Option Document) :
    (Access.set scope key doc : Action Error σ _).Enters Silent :=
  (silent_call .set scope (some key)).after (fun _ _ _ _ => ⟨rfl, nofun, rfl⟩) fun _ _ => ⟨nofun, rfl⟩

theorem enters_skipped (n : Nat) (b : Books) : Entered n 0 0 b (b.enter (.key .skipped)) := by
  refine ⟨rfl, ?_, (Entered.refl n b).underway, id⟩
  rw [arrears, arrears, due_key]
  simp [KeyOutcome.documents, Books.enter]

/-- What a bucket is to become is found out in silence, but for a retraction that is skipped. -/
def Planned (b : Books) (r : Except (Failure Error) (Option Revision)) (b' : Books) : Prop :=
  r ≠ .error .crash ∧ (∀ n, Entered n 0 0 b b') ∧ ∀ rev, r = .ok (some rev) → rev.Fair

theorem Planned.of_fair {b : Books} {r? : Option Revision} (fair : ∀ rev ∈ r?, rev.Fair) : Planned b (.ok r?) b :=
  ⟨nofun, fun n => .refl n b, fun _ same => fair _ (Except.ok.inj same)⟩

theorem Planned.of_error (b : Books) (e : Error) : Planned b (.error (.error e)) b :=
  ⟨nofun, fun n => .refl n b, nofun⟩

theorem enters_plan? (site : Site) (phase : Phase) (group : Group) :
    (plan? site phase group : Action Error σ _).Enters Planned := by
  obtain ⟨key, docs⟩ := group
  cases phase with
  | retract =>
    refine (silent_get? site.scope key).after (fun stored => ?_) .of_error
    cases stored with
    | none =>
      refine ((enters_pure none).after_record (.key .skipped)).mono ?_
      rintro b _ _ ⟨rfl, rfl⟩
      exact ⟨fun crash => (by cases crash), fun n => enters_skipped n b, fun _ same => (by cases same)⟩
    | some stored =>
      refine .of_pure fun b => .of_fair fun rev mem => ?_
      cases mem
      rfl
  | add =>
    rw [plan?]
    cases site.stage.reduce? docs with
    | none => exact .of_pure fun b => .of_fair fun _ mem => by cases mem
    | some candidate =>
      refine (silent_get? site.scope key).after (fun stored => ?_) .of_error
      cases stored with
      | none =>
        refine .of_pure fun b => .of_fair fun rev mem => ?_
        cases mem
        rfl
      | some stored =>
        refine .of_pure fun b => .of_fair fun rev mem => ?_
        obtain ⟨merged, -, rfl⟩ := Option.map_eq_some_iff.1 mem
        rfl

/-- A bucket that is written is entered, and one that cannot be written is not. -/
theorem enters_write (site : Site) (rev : Revision) :
    (write site rev : Action Error σ Unit).Enters fun b r b' =>
      r = .ok () ∧ b' = b.enter (.key rev.outcome) ∨ (∃ e, r = .error (.error e)) ∧ b' = b :=
  (silent_set site.scope rev.key (some rev.new)).after
    (fun _ => (enters_record _).mono fun _ _ _ entered => .inl entered) fun _ e => .inr ⟨⟨e, rfl⟩, rfl⟩

/-- The revision that comes of a group is entered. -/
def Handled (b : Books) (r : Except (Failure Error) (Option Revision)) (b' : Books) : Prop :=
  (∃ e, r = .error (.error e) ∧ ∀ n, Noted n [] b b') ∨ ∃ r?, r = .ok r? ∧ ∀ n, Noted n r?.toList b b'

theorem enters_processGroup (site : Site) (phase : Phase) (group : Group) :
    (processGroup site phase group : Action Error σ _).Enters Handled := by
  refine ((enters_plan? site phase group).bind (T := fun r? b r b' => (∀ rev ∈ r?, rev.Fair) → Handled b r b')
    fun r? => ?_).mono ?_
  · cases r? with
    | none => exact .of_pure fun b _ => .inr ⟨none, rfl, fun n => .refl n b⟩
    | some rev =>
      refine ((enters_write site rev).bind fun _ => enters_pure _).mono ?_
      rintro b r b' (⟨_, m, ⟨-, rfl⟩ | ⟨⟨e, wrong⟩, -⟩, rfl, rfl⟩ | ⟨f, ⟨wrong, -⟩ | ⟨⟨e, stopped⟩, rfl⟩, rfl⟩) fair
      · exact .inr ⟨some rev, rfl, fun n => (fair rev rfl).noted n _⟩
      · cases wrong
      · cases wrong
      · cases stopped
        exact .inl ⟨e, rfl, fun n => .refl n _⟩
  · rintro b r b' (⟨r?, m, ⟨-, entered, fair⟩, handled⟩ | ⟨f, ⟨ends, entered, -⟩, rfl⟩)
    · rcases handled (fun rev mem => fair rev (congrArg Except.ok mem)) with ⟨e, rfl, noted⟩ | ⟨r?, rfl, noted⟩
      · exact .inl ⟨e, rfl, fun n => (Noted.of_entered (entered n)).trans (noted n)⟩
      · exact .inr ⟨r?, rfl, fun n => (Noted.of_entered (entered n)).trans (noted n)⟩
    · cases f with
      | error e => exact .inl ⟨e, rfl, fun n => .of_entered (entered n)⟩
      | crash => exact absurd rfl ends

/-! ## Many groups -/

/-- The revisions that progress has come to have been entered. -/
def Progressed (p : Progress) (b : Books) (r : Except (Failure Error) Progress) (b' : Books) : Prop :=
  ∃ q rs, r = .ok q ∧ q.revisions = p.revisions ++ rs ∧ ∀ n, Noted n rs b b'

theorem Progressed.of_noted {p p' : Progress} {rs : List Revision} {b m b' : Books}
    {r : Except (Failure Error) Progress} (more : p'.revisions = p.revisions ++ rs) (noted : ∀ n, Noted n rs b m)
    (later : Progressed p' m r b') : Progressed p b r b' := by
  obtain ⟨q, rs', ran, revisions, noted'⟩ := later
  exact ⟨q, rs ++ rs', ran, by rw [revisions, more, List.append_assoc], fun n => (noted n).trans (noted' n)⟩

theorem enters_processAll (site : Site) (phase : Phase) (groups : List Group) (p : Progress) :
    (processAll site phase groups p : Action Error σ _).Enters (Progressed p) := by
  induction groups generalizing p with
  | nil => exact .of_pure fun b => ⟨p, [], rfl, (List.append_nil _).symm, fun n => .refl n b⟩
  | cons group rest ih =>
    -- A group that does not crash is told to what has come of those before it.
    refine ((enters_processGroup site phase group).attempt_bind (T := fun ended b r b' =>
      ∀ told, ended = Except.mapError Failure.error told → Progressed (p.add told) b r b') fun ended => ?_).mono ?_
    · rcases ended with (e | _) | r?
      · refine (ih (p.add (.error e))).mono fun b r b' later told same => ?_
        cases told <;> cases same
        exact later
      · refine (enters_fail .crash).mono fun b r b' _ told same => ?_
        cases told <;> cases same
      · refine (ih (p.add (.ok r?))).mono fun b r b' later told same => ?_
        cases told <;> cases same
        exact later
    · rintro b r b' ⟨_, m, ⟨e, rfl, noted⟩ | ⟨r?, rfl, noted⟩, later⟩
      · exact .of_noted (List.append_nil _).symm noted (later (.error e) rfl)
      · exact .of_noted rfl noted (later (.ok r?) rfl)

theorem enters_processWorkers (site : Site) (phase : Phase) (lists : List (List Group)) (p : Progress) :
    (processWorkers site phase lists p : Action Error σ _).Enters (Progressed p) := by
  induction lists generalizing p with
  | nil => exact .of_pure fun b => ⟨p, [], rfl, (List.append_nil _).symm, fun n => .refl n b⟩
  | cons groups rest ih =>
    refine ((enters_processAll site phase groups {}).attempt_bind fun ended =>
      ih (p.join (workerProgress ended))).mono ?_
    rintro b r b' ⟨_, m, ⟨q, rs, rfl, revisions, noted⟩, later⟩
    refine .of_noted ?_ noted later
    rw [Progress.join, workerProgress, revisions]
    rfl

theorem enters_process (workers : Nat) (site : Site) (phase : Phase) (groups : List Group) :
    (process workers site phase groups : Action Error σ _).Enters (Progressed {}) := by
  rw [process]
  split
  · exact enters_processWorkers site phase _ {}
  · exact enters_processAll site phase groups {}

/-! ## Handing on -/

theorem enters_enqueue (stage : Stage) (phase : Phase) (doc : Document) :
    (enqueue stage phase doc : Action ε Queues Unit).Enters fun b r b' => r = .ok () ∧ b' = b.bring 1 := by
  rw [enqueue]
  cases stage.map? doc with
  | none => exact enters_record .rejected
  | some entry => exact (smooth_modifyLocal _).then fun _ => enters_record _

theorem enters_forwardRevision (next : Stage) (rev : Revision) :
    (forwardRevision next rev : Action ε Queues Unit).Enters fun b r b' =>
      r = .ok () ∧ b' = b.bring (weight [rev]) := by
  rw [forwardRevision, weight, weight]
  cases rev.old with
  | none => exact enters_enqueue next .add _
  | some old =>
    refine ((enters_enqueue next .retract _).bind fun _ => enters_enqueue next .add _).mono ?_
    rintro b r b' (⟨_, m, ⟨-, rfl⟩, ran, rfl⟩ | ⟨f, ⟨wrong, -⟩, -⟩)
    · exact ⟨ran, rfl⟩
    · cases wrong

theorem enters_forwardAll (next : Stage) (rs : List Revision) :
    (forwardAll next rs : Action ε Queues Unit).Enters fun b r b' => r = .ok () ∧ b' = b.bring (weight rs) := by
  induction rs with
  | nil => exact enters_pure ()
  | cons rev rest ih =>
    refine ((enters_forwardRevision next rev).bind fun _ => ih).mono ?_
    rintro b r b' (⟨_, m, ⟨-, rfl⟩, ran, rfl⟩ | ⟨f, ⟨wrong, -⟩, -⟩)
    · refine ⟨ran, ?_⟩
      rw [Books.bring, Books.bring, Books.bring, weight, weight, weight, Nat.add_zero, Nat.add_assoc]
    · cases wrong

/-- The stage at hand is the last but for `behindSites`, and its cycle is under way. -/
def Inside (n : Nat) (behindSites : List Site) (b : Books) : Prop := b.underway.length + behindSites.length = n

/-- What was revised is handed on unless there is no stage behind. -/
theorem enters_forward (n : Nat) (behindSites : List Site) (rs : List Revision) :
    (forward behindSites rs : Action ε (List Queues) Unit).Enters fun b r b' =>
      Inside n behindSites b → r = .ok () ∧ Entered n 0 (-b.share n rs) b b' := by
  cases behindSites with
  | nil =>
    refine .of_pure fun b inside => ?_
    rw [Inside, List.length_nil] at inside
    rw [share, if_neg (by omega), Int.neg_zero]
    exact ⟨rfl, .refl n _⟩
  | cons next rest =>
    have handed := (((enters_forwardAll (ε := ε) next.stage rs).zoom (fun qs => qs.headD {})
      fun q qs => q :: qs.tail).zoom List.tail fun rest qs => qs.headD {} :: rest).bind fun _ =>
        enters_record (.chainForward (weight rs))
    refine handed.mono ?_
    rintro b r b' (⟨_, m, ⟨-, rfl⟩, rfl, rfl⟩ | ⟨f, ⟨wrong, -⟩, -⟩) inside
    · rw [Inside, List.length_cons] at inside
      rw [share, if_pos (by omega)]
      refine ⟨rfl, ?_, ?_, (Entered.refl n b).underway, id⟩
      · simp only [intake, Books.enter, Books.bring]
        push_cast
        omega
      · show (b.due n : Int) - (b.forwarded + weight rs : Nat) = b.due n - b.forwarded + -(weight rs : Int)
        push_cast
        omega
    · cases wrong

/-! ## Cycles -/

/-- How the part of a cycle goes that touches keys and hands on all that it revises. -/
def Reckoned (n : Nat) (b : Books) (r : Except (Failure Error) Nat) (b' : Books) : Prop :=
  ∃ k, Entered n k 0 b b' ∧ (r = .ok k ∨ ∃ e, r = .error (.error e))

theorem Reckoned.of_ok {n k : Nat} {b b' : Books} (reckoned : Reckoned n b (.ok k) b') : Entered n k 0 b b' := by
  obtain ⟨k', entered, same | ⟨e, wrong⟩⟩ := reckoned
  · rwa [Except.ok.inj same]
  · cases wrong

theorem Reckoned.of_error {n : Nat} {f : Failure Error} {b b' : Books} (reckoned : Reckoned n b (.error f) b') :
    ∃ k e, f = .error e ∧ Entered n k 0 b b' := by
  obtain ⟨k, entered, wrong | ⟨e, same⟩⟩ := reckoned
  · cases wrong
  · exact ⟨k, e, Except.error.inj same, entered⟩

/-- How a commit of stages goes that are the last of a chain. -/
def Squares (n : Nat) (sites : List Site) (b : Books) (r : Except (Failure Error) Unit) (b' : Books) : Prop :=
  Inside n sites b → r ≠ .error .crash ∧ Entered n 0 0 b b'

section Cycles

variable {n : Nat} (site : Site) {behindSites : List Site} {commitBehind : Action Error (List Queues) Unit}

theorem Inside.entered {sites : List Site} {k : Nat} {a : Int} {b b' : Books} (inside : Inside n sites b)
    (entered : Entered n k a b b') : Inside n sites b' := by
  rw [Inside, entered.length]
  exact inside

theorem smooth_drain (which : Phase) : (here (drain which) : Action ε (List Queues) _).Enters Smooth :=
  fun _ _ _ => ⟨rfl, ⟨_, rfl⟩, rfl⟩

theorem enters_settle (enters : commitBehind.Enters (Squares n behindSites)) :
    (settle commitBehind : Action Error (List Queues) Unit).Enters fun b r b' =>
      Inside n behindSites b → r = .ok () ∧ Entered n 0 0 b b' := by
  rw [settle]
  refine (enters.attempt_bind (T := fun ended b r b' => (ended ≠ .error .crash → r = .ok ()) ∧ b' = b)
    fun ended => ?_).mono ?_
  · rcases ended with (e | _) | _
    · exact .of_pure fun b => ⟨fun _ => rfl, rfl⟩
    · exact (enters_fail .crash).mono fun _ _ _ => And.imp_left fun _ ends => absurd rfl ends
    · exact .of_pure fun b => ⟨fun _ => rfl, rfl⟩
  · rintro b r b' ⟨ended, m, squares, ran, rfl⟩ inside
    obtain ⟨ends, entered⟩ := squares inside
    exact ⟨ran ends, entered⟩

theorem enters_finishPhase (enters : commitBehind.Enters (Squares n behindSites)) (p : Progress) :
    (finishPhase behindSites commitBehind p).Enters fun b r b' =>
      Inside n behindSites b → (r = .ok p.revisions.length ∨ ∃ e, r = .error (.error e)) ∧
        Entered n 0 (-b.share n p.revisions) b b' := by
  -- What follows enters nothing more, whether or not the phase has failed.
  refine ((enters_forward n behindSites p.revisions).bind (T := fun _ b r b' => Inside n behindSites b →
    (r = .ok p.revisions.length ∨ ∃ e, r = .error (.error e)) ∧ Entered n 0 0 b b') fun _ => ?_).mono ?_
  · cases p.failed with
    | none => exact .of_pure fun b _ => ⟨.inl rfl, .refl n b⟩
    | some e =>
      refine ((enters_settle enters).bind fun _ => enters_fail _).mono ?_
      rintro b r b' (⟨_, m, settled, rfl, rfl⟩ | ⟨f, settled, -⟩) inside
      · exact ⟨.inr ⟨e, rfl⟩, (settled inside).2⟩
      · obtain ⟨wrong, -⟩ := settled inside
        cases wrong
  · rintro b r b' (⟨_, m, handed, ends⟩ | ⟨f, handed, -⟩) inside
    · obtain ⟨-, entered⟩ := handed inside
      obtain ⟨ran, entered'⟩ := ends (inside.entered entered)
      have both := entered.trans entered'
      rw [Int.add_zero] at both
      exact ⟨ran, both⟩
    · obtain ⟨wrong, -⟩ := handed inside
      cases wrong

/-- A phase hands on as much as its keys make for the stage behind. -/
theorem enters_phase (workers : Nat) (enters : commitBehind.Enters (Squares n behindSites)) (which : Phase) :
    (phase workers site behindSites commitBehind which).Enters fun b r b' =>
      Inside n behindSites b → Reckoned n b r b' := by
  refine (smooth_drain which).then fun entries => ?_
  split
  · exact .of_pure fun b _ => ⟨0, .refl n b, .inl rfl⟩
  · refine ((enters_process workers site which _).bind fun p => enters_finishPhase enters p).mono ?_
    rintro b r b' (⟨p, m, ⟨q, rs, ran, revisions, noted⟩, ends⟩ | ⟨f, ⟨_, _, wrong, -⟩, -⟩) inside
    · obtain rfl : p = q := Except.ok.inj ran
      obtain rfl : p.revisions = rs := revisions
      obtain ⟨ran, entered⟩ := ends (inside.entered (noted n))
      have both := Entered.trans (noted n) entered
      rw [Entered.share (noted n), Int.add_right_neg] at both
      exact ⟨_, both, ran⟩
    · cases wrong

/-- How a cycle goes until it reports its end. -/
theorem enters_phases (workers : Nat) (enters : commitBehind.Enters (Squares n behindSites)) :
    (phases workers site behindSites commitBehind).Enters fun b r b' =>
      Inside n behindSites b → Reckoned n b r b' := by
  have flush (k : Nat) : (do
      Access.commit site.scope
      commitBehind
      return k : Action Error (List Queues) Nat).Enters fun b r b' =>
      Inside n behindSites b → Entered n 0 0 b b' ∧ (r = .ok k ∨ ∃ e, r = .error (.error e)) := by
    refine (silent_call .commit site.scope none).after (fun _ => (enters.bind fun _ => enters_pure k).mono ?_)
      fun b e _ => ⟨.refl n b, .inr ⟨e, rfl⟩⟩
    rintro b r b' (⟨_, m, squares, rfl, rfl⟩ | ⟨f, squares, rfl⟩) inside
    · exact ⟨(squares inside).2, .inl rfl⟩
    · obtain ⟨ends, entered⟩ := squares inside
      cases f with
      | error e => exact ⟨entered, .inr ⟨e, rfl⟩⟩
      | crash => exact absurd rfl ends
  refine ((enters_phase site workers enters .retract).bind fun k =>
    (enters_phase site workers enters .add).bind fun l => flush (k + l)).mono ?_
  rintro b r b' (⟨k, m, first, rest⟩ | ⟨f, failed, rfl⟩) inside
  · have retracted := (first inside).of_ok
    have inside := inside.entered retracted
    rcases rest with ⟨l, m', second, last⟩ | ⟨f, failed, rfl⟩
    · have added := (second inside).of_ok
      obtain ⟨flushed, ran⟩ := last (inside.entered added)
      exact ⟨k + l, (retracted.trans added).trans flushed, ran⟩
    · obtain ⟨l, e, rfl, added⟩ := (failed inside).of_error
      exact ⟨k + l, retracted.trans added, .inr ⟨e, rfl⟩⟩
  · obtain ⟨k, e, rfl, retracted⟩ := (failed inside).of_error
    exact ⟨k, retracted, .inr ⟨e, rfl⟩⟩

end Cycles

/-- The event that reports how a cycle has ended. -/
def ending : Except (Failure Error) Nat → Event
  | .ok k => .commitFinish k
  | .error _ => .commitFailed

theorem enters_finishCycle (ended : Except (Failure Error) Nat) :
    (finishCycle ended : Action Error σ Unit).Enters fun b r b' =>
      ended ≠ .error .crash → r = ended.map (fun _ => ()) ∧ b' = b.enter (ending ended) := by
  rcases ended with (e | _) | k
  · exact ((enters_fail _).after_record .commitFailed).mono fun _ _ _ entered _ => entered
  · exact (enters_fail .crash).mono fun _ _ _ _ ends => absurd rfl ends
  · exact (enters_record _).mono fun _ _ _ entered _ => entered

/-- A cycle that ends is not under way any more, and reports what it has touched. -/
theorem enter_ending {n k : Nat} {rest : List Nat} {b : Books} (underway : b.underway = k :: rest)
    {ended : Except (Failure Error) Nat} (ran : ended = .ok k ∨ ∃ e, ended = .error (.error e)) :
    (b.enter (ending ended)).underway = rest ∧ (b.enter (ending ended)).arrears n = b.arrears n ∧
      (b.enter (ending ended)).intake = b.intake ∧
      (b.honest = true → (b.enter (ending ended)).honest = true) := by
  rcases ran with rfl | ⟨e, rfl⟩
  · refine ⟨congrArg List.tail underway, rfl, rfl, fun honest => ?_⟩
    show (b.honest && b.underway.head? == some k) = true
    rw [honest, underway]
    exact beq_iff_eq.2 rfl
  · refine ⟨congrArg List.tail underway, rfl, rfl, fun honest => ?_⟩
    show (b.honest && !b.underway.isEmpty) = true
    rw [honest, underway]
    rfl

/-- A cycle leaves the books as it found them, but for what it did in between. -/
theorem Reckoned.finish {n : Nat} {b m : Books} {ended : Except (Failure Error) Nat}
    (reckoned : Reckoned n (b.enter .commitStart) ended m) : Entered n 0 0 b (m.enter (ending ended)) := by
  obtain ⟨k, entered, ran⟩ := reckoned
  have begun : m.underway = (0 + k) :: b.underway := entered.underway
  rw [Nat.zero_add] at begun
  obtain ⟨underway, arrears, intake, honest⟩ := enter_ending (n := n) begun ran
  refine ⟨intake.trans entered.intake, arrears.trans entered.arrears, ?_, fun kept => honest (entered.honest kept)⟩
  rw [underway]
  exact (Entered.refl n b).underway

/-- Whatever the store refuses, a commit of the last stages of a chain leaves nothing due that was not due
before, ends the cycles that it starts, and reports of each as many keys as it touched. -/
theorem enters_commit (n workers : Nat) (sites : List Site) :
    (commit workers sites).Enters (Squares n sites) := by
  induction sites with
  | nil =>
    exact .of_pure fun b _ => ⟨nofun, .refl n b⟩
  | cons site behindSites ih =>
    have enters : (behind (commit workers behindSites)).Enters (Squares n behindSites) := ih.zoom _ _
    refine (((enters_phases site workers enters).attempt_bind enters_finishCycle).after_record .commitStart).mono ?_
    rintro b r b' ⟨ended, m, goes, ends⟩ inside
    have reckoned := goes (by rw [Inside, ← inside, List.length_cons]; exact Nat.succ_add_eq_add_succ _ _)
    have sane : ended ≠ .error .crash := by
      rintro rfl
      obtain ⟨k, e, wrong, -⟩ := reckoned.of_error
      cases wrong
    obtain ⟨rfl, rfl⟩ := ends sane
    refine ⟨fun crash => sane ?_, reckoned.finish⟩
    cases ended with
    | error f => exact congrArg _ (Except.error.inj crash)
    | ok k => cases crash

theorem enters_behind (n workers : Nat) (behindSites : List Site) :
    (behind (commit workers behindSites)).Enters (Squares n behindSites) :=
  (enters_commit n workers behindSites).zoom _ _

end Ingest

end Rollup
