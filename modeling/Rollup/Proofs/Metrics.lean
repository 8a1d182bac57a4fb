import Rollup.Metrics

/-!
# Books

Events tell more than counters do: which cycles are under way, how many keys each of them has touched,
and at which stage a key was, since a stage behind is committed within the cycle of the one before it.
`Books` keep what follows from events about this.

Counters that have not reached their greatest value agree with the books (`Counters.agree_ofEvents`).
-/

namespace Rollup

/-- The number of documents that a stage hands on for a key. -/
def KeyOutcome.documents : KeyOutcome → Nat
  | inserted => 1
  | merged | unreduced => 2
  | skipped => 0

/-- What events amount to. -/
structure Books where
  /-- The documents that came to any stage, queued or rejected. -/
  docs : Nat := 0
  /-- The documents that a stage handed on to the one behind it. -/
  forwarded : Nat := 0
  /-- How many keys the cycles under way have touched, the innermost first. -/
  underway : List Nat := []
  /-- What was done with keys, each with the number of its stage, which is one at the root. -/
  keys : List (Nat × KeyOutcome) := []
  /-- Whether every cycle that ended was under way, and reported what it touched if it succeeded. -/
  honest : Bool := true
deriving Repr, DecidableEq

namespace Books

/-- Adds an event. -/
def enter (b : Books) : Event → Books
  | .queued _ | .rejected => { b with docs := b.docs + 1 }
  | .commitStart => { b with underway := 0 :: b.underway }
  | .commitFinish n =>
    { b with underway := b.underway.tail, honest := b.honest && b.underway.head? == some n }
  | .commitFailed => { b with underway := b.underway.tail, honest := b.honest && !b.underway.isEmpty }
  | .key .skipped => { b with keys := b.keys ++ [(b.underway.length, .skipped)] }
  | .key outcome =>
    { b with
      keys := b.keys ++ [(b.underway.length, outcome)]
      underway := b.underway.modifyHead (· + 1) }
  | .chainForward n => { b with forwarded := b.forwarded + n }

/-- The books of a list of events. -/
def ofEvents (events : List Event) : Books := events.foldl enter {}

/-- How often something was done with a key of the stages before the one with number `n`. -/
def keysBefore (n : Nat) (b : Books) (outcome : KeyOutcome) : Nat :=
  b.keys.countP fun key => decide (key.1 < n) && key.2 == outcome

/-- The documents that the stages before the one with number `n` have to hand on for their keys. -/
def due (n : Nat) (b : Books) : Nat :=
  b.keysBefore n .inserted + 2 * (b.keysBefore n .merged + b.keysBefore n .unreduced)

theorem ofEvents_append_singleton (events : List Event) (e : Event) :
    ofEvents (events ++ [e]) = (ofEvents events).enter e := by
  rw [ofEvents, List.foldl_append]
  rfl

theorem honest_of_enter {b : Books} {e : Event} (honest : (b.enter e).honest = true) : b.honest = true := by
  cases e with
  | queued _ | rejected | commitStart | chainForward _ => exact honest
  | commitFinish _ | commitFailed => exact (Bool.and_eq_true_iff.1 honest).1
  | key outcome => cases outcome <;> exact honest

theorem honest_of_append {events more : List Event} (honest : (ofEvents (events ++ more)).honest = true) :
    (ofEvents events).honest = true := by
  induction more generalizing events with
  | nil => rwa [List.append_nil] at honest
  | cons e more ih =>
    rw [List.append_cons] at honest
    have first := ih honest
    rw [ofEvents_append_singleton] at first
    exact honest_of_enter first

/-- Where the books are honest, every cycle that succeeded has reported as many keys as it touched. -/
theorem reported {before after : List Event} {n : Nat}
    (honest : (ofEvents (before ++ .commitFinish n :: after)).honest = true) :
    (ofEvents before).underway.head? = some n := by
  rw [List.append_cons] at honest
  have ended := honest_of_append honest
  rw [ofEvents_append_singleton] at ended
  exact beq_iff_eq.1 (Bool.and_eq_true_iff.1 ended).2

theorem keysBefore_append (n : Nat) (b : Books) (level : Nat) (outcome which : KeyOutcome) :
    keysBefore n { b with keys := b.keys ++ [(level, outcome)] } which =
      b.keysBefore n which + if level < n ∧ outcome = which then 1 else 0 := by
  rw [keysBefore, List.countP_append, List.countP_singleton]
  simp only [Bool.and_eq_true, decide_eq_true_eq, beq_iff_eq]
  rfl

/-- A key that is handed on adds its documents to what is due. -/
theorem due_key (n : Nat) (b : Books) (outcome : KeyOutcome) :
    (b.enter (.key outcome)).due n = b.due n + if b.underway.length < n then outcome.documents else 0 := by
  have counts (which : KeyOutcome) : (b.enter (.key outcome)).keysBefore n which =
      b.keysBefore n which + if b.underway.length < n ∧ outcome = which then 1 else 0 := by
    rw [← keysBefore_append n b b.underway.length outcome which]
    cases outcome <;> rfl
  simp only [due, counts]
  cases outcome <;> simp [KeyOutcome.documents] <;> split <;> omega

end Books

namespace Counters

/-- No counter has reached its greatest value. -/
def HasRoom (c : Counters) : Prop := ∀ counter ∈ c.toList, counter.2 < 0xffffffffffffffff

theorem hasRoom_iff {c : Counters} : c.HasRoom ↔
    (c.docsQueued < 0xffffffffffffffff ∧ c.docsRejected < 0xffffffffffffffff) ∧
    (c.commitsStarted < 0xffffffffffffffff ∧ c.commitsFinished < 0xffffffffffffffff ∧
      c.commitsFailed < 0xffffffffffffffff) ∧
    (c.keysInserted < 0xffffffffffffffff ∧ c.keysMerged < 0xffffffffffffffff ∧
      c.keysUnreduced < 0xffffffffffffffff ∧ c.keysSkipped < 0xffffffffffffffff) ∧
    c.chainForwards < 0xffffffffffffffff := by
  simp only [HasRoom, toList, List.forall_mem_cons, List.not_mem_nil, false_imp_iff, implies_true, and_true,
    and_assoc]

/-- Counters say what books do. -/
structure Agree (c : Counters) (b : Books) : Prop where
  docs : c.docsQueued + c.docsRejected = b.docs
  forwarded : c.chainForwards = b.forwarded
  cycles : b.honest = true → c.commitsStarted = c.commitsFinished + c.commitsFailed + b.underway.length

theorem HasRoom.of_record {c : Counters} {e : Event} (room : (c.record e).HasRoom) : c.HasRoom := by
  rw [hasRoom_iff] at room ⊢
  rcases e with _ | _ | _ | _ | _ | (_ | _ | _ | _) | _ <;> simp only [record, add] at room <;> omega

theorem Agree.record {c : Counters} {b : Books} {e : Event} (agree : c.Agree b) (room : (c.record e).HasRoom) :
    (c.record e).Agree (b.enter e) := by
  obtain ⟨docs, forwarded, cycles⟩ := agree
  rw [hasRoom_iff] at room
  -- There is room, so no addition has wrapped and the balances are those of plain numbers.
  cases e with
  | queued _ | rejected =>
    simp only [Counters.record, add] at room
    refine ⟨?_, forwarded, cycles⟩
    simp only [Counters.record, add, Books.enter]
    omega
  | commitStart =>
    simp only [Counters.record, add] at room
    refine ⟨docs, forwarded, fun honest => ?_⟩
    have balance := cycles honest
    simp only [Counters.record, add, Books.enter, List.length_cons]
    omega
  | commitFinish n =>
    simp only [Counters.record, add] at room
    refine ⟨docs, forwarded, fun honest => ?_⟩
    obtain ⟨honest, led⟩ := Bool.and_eq_true_iff.1 honest
    have balance := cycles honest
    obtain ⟨rest, under⟩ := List.head?_eq_some_iff.1 (beq_iff_eq.1 led)
    rw [under, List.length_cons] at balance
    simp only [Counters.record, add, Books.enter, under, List.tail_cons]
    omega
  | commitFailed =>
    simp only [Counters.record, add] at room
    refine ⟨docs, forwarded, fun honest => ?_⟩
    obtain ⟨honest, led⟩ := Bool.and_eq_true_iff.1 honest
    have balance := cycles honest
    cases under : b.underway with
    | nil => simp [under] at led
    | cons n rest =>
      rw [under, List.length_cons] at balance
      simp only [Counters.record, add, Books.enter, under, List.tail_cons]
      omega
  | key outcome =>
    refine ⟨?_, ?_, fun honest => ?_⟩
    · cases outcome <;> exact docs
    · cases outcome <;> exact forwarded
    · have balance := cycles (Books.honest_of_enter honest)
      cases outcome <;> simpa [Counters.record, Books.enter] using balance
  | chainForward n =>
    simp only [Counters.record, add] at room
    refine ⟨docs, ?_, cycles⟩
    simp only [Counters.record, add, Books.enter]
    omega

/-- Counters that have room agree with the books of the same events. -/
theorem agree_ofEvents {events : List Event} (room : (ofEvents events).HasRoom) :
    (ofEvents events).Agree (Books.ofEvents events) := by
  suffices ∀ (c : Counters) (b : Books), (c.HasRoom → c.Agree b) → (events.foldl record c).HasRoom →
      (events.foldl record c).Agree (events.foldl Books.enter b) from
    this {} {} (fun _ => ⟨rfl, rfl, fun _ => rfl⟩) room
  clear room
  induction events with
  | nil => exact fun _ _ agree room => agree room
  | cons e rest ih => exact fun c b agree room => ih _ _ (fun room => (agree room.of_record).record room) room

end Counters

end Rollup
