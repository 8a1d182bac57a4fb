import Rollup.Proofs.Gate.Landings

/-!
# The gate is exclusive and is never stuck

In whatever order callers move, a cycle runs exactly while one caller leads it
(`exclusive_and_released`).  A caller that waits has joined the cycle of a leader (`Joined`); it goes
on when that leader has landed, and not before.  A leader that crashes opens the gate as any other.
-/

namespace Rollup.Crowd

/-- A caller came while somebody led, and these cycles have landed since. -/
def Joined (moves : List Move) (i leader : Nat) (landed : List (Nat × Outcome)) : Prop :=
  ∃ early later c, moves = early ++ .arrive :: later ∧ run? {} early = some c ∧ c.callers.length = i ∧
    c.Leads leader ∧ landings later = landed

theorem run?_append_singleton (c : Crowd) (moves : List Move) (move : Move) :
    c.run? (moves ++ [move]) = (c.run? moves).bind (step? · move) := by
  rw [run?, run?, List.foldlM_append]
  cases moves.foldlM step? c <;> simp

theorem landings_append_singleton (moves : List Move) (move : Move) :
    landings (moves ++ [move]) = landings moves ++ move.landing?.toList := by
  rw [landings, List.filterMap_append, landings, List.filterMap_cons]
  cases move.landing? <;> rfl

theorem Joined.snoc {moves : List Move} {i leader : Nat} {landed : List (Nat × Outcome)}
    (joined : Joined moves i leader landed) (move : Move) :
    Joined (moves ++ [move]) i leader (landed ++ move.landing?.toList) := by
  obtain ⟨early, later, c, rfl, ran, came, leads, rfl⟩ := joined
  refine ⟨early, later ++ [move], c, ?_, ran, came, leads, landings_append_singleton later move⟩
  rw [List.append_assoc, List.cons_append]

section Step

variable {c c' : Crowd} {callers : List Caller} {i j : Nat} {generation : UInt64} {now : Caller}

theorem waiting_of_set (other : now ≠ .waiting generation)
    (waits : (callers.set j now)[i]? = some (.waiting generation)) :
    i ≠ j ∧ callers[i]? = some (.waiting generation) := by
  obtain ⟨present, found⟩ := List.getElem?_eq_some_iff.1 waits
  rw [List.getElem_set] at found
  split at found
  · exact absurd found other
  · next apart =>
    rw [List.length_set] at present
    exact ⟨Ne.symm apart, List.getElem?_eq_some_iff.2 ⟨present, found⟩⟩

theorem waiting_of_append (waits : (callers ++ [now])[i]? = some (.waiting generation)) :
    callers[i]? = some (.waiting generation) ∨ i = callers.length ∧ now = .waiting generation := by
  rw [List.getElem?_append] at waits
  split at waits
  · exact .inl waits
  · next behind =>
    rw [List.getElem?_singleton] at waits
    split at waits
    · exact .inr ⟨by omega, Option.some.inj waits⟩
    · cases waits

/-- A caller that waits after a move waited before it, or came with it while a cycle ran. -/
theorem waiting_of_step {move : Move} (ran : c.step? move = some c')
    (waits : c'.callers[i]? = some (.waiting generation)) :
    move ≠ .wake i ∧ (c.callers[i]? = some (.waiting generation) ∨
      move = .arrive ∧ i = c.callers.length ∧ generation = c.gate.generation ∧ c.gate.running = true) := by
  have landed : ∀ {j outcome}, c.step? (.land j outcome) = some c' → c.callers[i]? = some (.waiting generation) := by
    intro j outcome ran
    obtain ⟨-, rfl⟩ := step?_land ran
    exact (waiting_of_set Caller.noConfusion waits).2
  cases move with
  | land j outcome => exact ⟨Move.noConfusion, .inl (landed ran)⟩
  | abort j => exact ⟨Move.noConfusion, .inl (landed (step?_abort c j ▸ ran))⟩
  | wake j =>
    obtain ⟨_, told, -, -, rfl⟩ := step?_wake ran
    obtain ⟨other, before⟩ := waiting_of_set Caller.noConfusion waits
    exact ⟨fun same => other (Move.wake.inj same).symm, .inl before⟩
  | arrive =>
    cases ran
    refine ⟨Move.noConfusion, ?_⟩
    by_cases running : c.gate.running = true
    · rw [arrive_of_running running] at waits
      refine (waiting_of_append waits).imp_right fun ⟨here, same⟩ => ?_
      exact ⟨rfl, here, (Caller.waiting.inj same).symm, running⟩
    · rw [arrive_of_free running] at waits
      exact (waiting_of_append waits).imp_right fun ⟨_, same⟩ => Caller.noConfusion same

end Step

/-- Whoever waits has joined the cycle of a leader. -/
theorem exists_awaits_of_waiting {moves : List Move} {c : Crowd} (reached : run? {} moves = some c) {i : Nat}
    {generation : UInt64} (waits : c.callers[i]? = some (.waiting generation)) :
    ∃ leader landed, Joined moves i leader landed ∧ c.Awaits i leader generation landed := by
  -- The induction is on the run from its end: the last move has brought the caller, or it waited before.
  induction moves using List.reverseRecOn generalizing c with
  | nil =>
    cases reached
    cases waits
  | append_singleton moves move ih =>
    rw [run?_append_singleton, Option.bind_eq_some_iff] at reached
    obtain ⟨before, earlier, ran⟩ := reached
    have orderly : before.Orderly := Orderly.empty.run earlier
    obtain ⟨asleep, waited | ⟨rfl, rfl, rfl, running⟩⟩ := waiting_of_step ran waits
    · obtain ⟨leader, landed, joined, awaits⟩ := ih earlier waited
      exact ⟨leader, _, joined.snoc move, awaits.step orderly ran asleep⟩
    · obtain ⟨leader, leads⟩ := orderly.running.1 running
      cases ran
      exact ⟨leader, [], ⟨moves, [], before, rfl, earlier, rfl, leads, rfl⟩, .arrive running leads⟩

/-- A leader that crashes opens the gate and leaves an error behind. -/
theorem step?_abort_of_leads {c : Crowd} {i : Nat} (leads : c.Leads i) :
    ∃ c', c.step? (.abort i) = some c' ∧ c'.gate.running = false ∧ c'.gate.last = some (.error .cycleAborted) := by
  rw [Leads] at leads
  exact ⟨_, by rw [step?, leads], rfl, rfl⟩

/-- However callers have moved, a cycle runs exactly while somebody leads it, and nobody else leads.
A caller that waits has joined a leader's cycle: it returns only when that leader has landed, and then with
the outcome that the gate keeps, and nothing holds it any longer.  A leader may crash at any time, which
opens the gate and leaves an error as the latest outcome. -/
theorem exclusive_and_released {moves : List Move} {c : Crowd} (reached : run? {} moves = some c) :
    (c.gate.running = true ↔ ∃ i, c.Leads i) ∧ (∀ i j, c.Leads i → c.Leads j → i = j) ∧
      (∀ i generation, c.callers[i]? = some (.waiting generation) → ∃ leader landed, Joined moves i leader landed ∧
        (∀ woken, c.step? (.wake i) = some woken → (∃ own, (leader, own) ∈ landed) ∧
          ∃ told, c.gate.last = some told ∧ woken.joined? i = some told) ∧
        (landed ≠ [] → landed.length < 2 ^ 64 → (c.step? (.wake i)).isSome)) ∧
      ∀ i, c.Leads i → ∃ freed, c.step? (.abort i) = some freed ∧ freed.gate.running = false ∧
        freed.gate.last = some (.error .cycleAborted) := by
  have orderly : c.Orderly := Orderly.empty.run reached
  refine ⟨orderly.running, orderly.unique, fun i generation waits => ?_, fun i leads => step?_abort_of_leads leads⟩
  obtain ⟨leader, landed, joined, awaits⟩ := exists_awaits_of_waiting reached waits
  refine ⟨leader, landed, joined, fun woken ran => ?_, fun some_ few => ?_⟩
  · cases landed with
    | nil =>
      rw [awaits.step?_wake_eq_none] at ran
      cases ran
    | cons own later =>
      obtain rfl : own.1 = leader := awaits.own own later rfl
      have latest := awaits.latest own later rfl
      refine ⟨⟨own.2, List.mem_cons_self⟩, _, latest, ?_⟩
      obtain ⟨_, told, waits', told_, rfl⟩ := step?_wake ran
      rw [Gate.outcome?] at told_
      split at told_
      · cases told_
      · rw [latest] at told_
        obtain ⟨present, -⟩ := List.getElem?_eq_some_iff.1 waits'
        rw [joined?, List.getElem?_set_self present]
        exact told_.symm
  · obtain ⟨own, later, rfl⟩ := List.exists_cons_of_ne_nil some_
    rw [awaits.step?_wake_of_landed few]
    rfl

/-- A leader crashes, and another one leads before the caller that waited for the first has woken up. -/
theorem exclusive_and_released_new_leader :
    let moves : List Move := [.arrive, .arrive, .abort 0, .arrive]
    ∃ c woken : Crowd, run? {} moves = some c ∧ c.gate.running = true ∧ (∀ i, c.Leads i → i = 2) ∧
      c.step? (.wake 1) = some woken ∧ woken.joined? 1 = some (.error .cycleAborted) := by
  intro moves
  obtain ⟨running, unique, waiting, -⟩ := @exclusive_and_released moves _ rfl
  obtain ⟨leader, landed, joined, told, -⟩ := waiting 1 0 rfl
  obtain ⟨-, told, latest, knows⟩ := told _ rfl
  cases latest
  exact ⟨_, _, rfl, running.2 ⟨2, rfl⟩, fun i leads => unique i 2 leads rfl, rfl, knows⟩

end Rollup.Crowd
