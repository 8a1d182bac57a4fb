import Mathlib.Tactic
import Rollup.Gate.Callers

/-!
# What waiting callers are told

A caller that joins a cycle waits until that cycle has landed and may wake up from then on.  Whenever
it does, it is told how the latest cycle ended (`told_latest_outcome`), which need not be the one that
it joined (`told_outcome_of_later_cycle`).
-/

namespace Rollup.Crowd

/-- The caller that ends a cycle in a move, and how the cycle ends. -/
def Move.landing? : Move → Option (Nat × Outcome)
  | .land i outcome => some (i, outcome)
  | .abort i => some (i, .error .cycleAborted)
  | .arrive | .wake _ => none

/-- The cycles that end in moves, in this order. -/
def landings (moves : List Move) : List (Nat × Outcome) := moves.filterMap Move.landing?

def Leads (c : Crowd) (i : Nat) : Prop := c.callers[i]? = some Caller.leading

/-! ## Single moves -/

section Moves

variable {c c' : Crowd} {i j : Nat} {outcome : Outcome}

/-- A leader that crashes lands its cycle with an error of its own. -/
theorem step?_abort (c : Crowd) (i : Nat) : c.step? (.abort i) = c.step? (.land i (.error .cycleAborted)) := rfl

theorem step?_land (ran : c.step? (.land i outcome) = some c') :
    c.Leads i ∧ c' = ⟨c.gate.land outcome, c.callers.set i .landed⟩ := by
  rw [step?] at ran
  split at ran
  · next leads => exact ⟨leads, (Option.some.inj ran).symm⟩
  · cases ran

/-- Only a waiting caller wakes up, and the gate does not change. -/
theorem step?_wake (ran : c.step? (.wake i) = some c') :
    ∃ generation told, c.callers[i]? = some (.waiting generation) ∧ c.gate.outcome? generation = some told ∧
      c' = { c with callers := c.callers.set i (.joined told) } := by
  rw [step?] at ran
  split at ran
  · next generation waits =>
    obtain ⟨told, open_, rfl⟩ := Option.map_eq_some_iff.1 ran
    exact ⟨generation, told, waits, open_, rfl⟩
  · cases ran

theorem arrive_of_running (running : c.gate.running = true) :
    c.arrive = ⟨c.gate, c.callers ++ [.waiting c.gate.generation]⟩ := by
  rw [arrive, Gate.enter, if_pos running]

theorem arrive_of_free (free : c.gate.running ≠ true) :
    c.arrive = ⟨{ c.gate with running := true }, c.callers ++ [.leading]⟩ := by
  rw [arrive, Gate.enter, if_neg free]

theorem getElem?_arrive {stands : Caller} (before : c.callers[i]? = some stands) :
    c.arrive.callers[i]? = some stands := by
  obtain ⟨present, -⟩ := List.getElem?_eq_some_iff.1 before
  rw [← before]
  by_cases running : c.gate.running = true
  · rw [arrive_of_running running]
    exact List.getElem?_append_left present
  · rw [arrive_of_free running]
    exact List.getElem?_append_left present

theorem leads_append {gate : Gate} {last : Caller} :
    Leads ⟨gate, c.callers ++ [last]⟩ j ↔ c.Leads j ∨ j = c.callers.length ∧ last = .leading := by
  rw [Leads, Leads, List.getElem?_append]
  split
  · next before => exact ⟨.inl, fun leads => leads.resolve_right fun wrong => before.ne wrong.1⟩
  · next behind =>
    rw [List.getElem?_eq_none (Nat.le_of_not_lt behind), List.getElem?_singleton]
    have last_ : j - c.callers.length = 0 ↔ j = c.callers.length := by omega
    simp [last_]

theorem leads_set {gate : Gate} {now : Caller} (other : now ≠ .leading) :
    Leads ⟨gate, c.callers.set i now⟩ j ↔ j ≠ i ∧ c.Leads j := by
  rw [Leads, Leads]
  by_cases same : i = j
  · subst same
    rw [List.getElem?_set_self']
    cases c.callers[i]? <;> simp [other]
  · rw [List.getElem?_set_ne same]
    exact ⟨fun leads => ⟨Ne.symm same, leads⟩, And.right⟩

end Moves

/-! ## Leaders -/

/-- A cycle runs while somebody leads it, and nobody else leads. -/
structure Orderly (c : Crowd) : Prop where
  running : c.gate.running = true ↔ ∃ i, c.Leads i
  unique : ∀ i j, c.Leads i → c.Leads j → i = j

namespace Orderly

variable {c c' : Crowd}

theorem empty : Orderly {} where
  running := ⟨nofun, fun ⟨_, leads⟩ => nomatch leads⟩
  unique _ _ leads := nomatch leads

theorem arrive (orderly : c.Orderly) : c.arrive.Orderly := by
  by_cases running : c.gate.running = true
  · rw [arrive_of_running running]
    constructor
    case running => simpa [leads_append] using orderly.running
    case unique =>
      intro i j first second
      exact orderly.unique i j (by simpa [leads_append] using first) (by simpa [leads_append] using second)
  · rw [arrive_of_free running]
    have nobody : ∀ i, ¬ c.Leads i := fun i leads => running (orderly.running.2 ⟨i, leads⟩)
    constructor
    case running => simp [leads_append]
    case unique =>
      intro i j first second
      simp only [leads_append, nobody, false_or, and_true] at first second
      exact first.trans second.symm

theorem land (orderly : c.Orderly) {i : Nat} {outcome : Outcome} (ran : c.step? (.land i outcome) = some c') :
    c'.Orderly := by
  obtain ⟨leads, rfl⟩ := step?_land ran
  have nobody : ∀ j, ¬ Leads ⟨c.gate.land outcome, c.callers.set i .landed⟩ j := by
    intro j leads'
    obtain ⟨other, leads'⟩ := (leads_set (by nofun)).1 leads'
    exact other (orderly.unique j i leads' leads)
  constructor
  case running => exact ⟨nofun, fun ⟨j, leads'⟩ => absurd leads' (nobody j)⟩
  case unique => exact fun j _ leads' => absurd leads' (nobody j)

theorem wake (orderly : c.Orderly) {i : Nat} (ran : c.step? (.wake i) = some c') : c'.Orderly := by
  obtain ⟨generation, told, waits, -, rfl⟩ := step?_wake ran
  -- Whoever wakes up did not lead.
  have same : ∀ j, Leads ⟨c.gate, c.callers.set i (.joined told)⟩ j ↔ c.Leads j := by
    intro j
    rw [leads_set (by nofun)]
    refine ⟨And.right, fun leads => ⟨?_, leads⟩⟩
    rintro rfl
    rw [Leads, waits] at leads
    cases leads
  constructor
  case running =>
    simp only [same]
    exact orderly.running
  case unique =>
    intro j k first second
    exact orderly.unique j k ((same j).1 first) ((same k).1 second)

theorem step (orderly : c.Orderly) {move : Move} (ran : c.step? move = some c') : c'.Orderly := by
  cases move with
  | arrive =>
    cases ran
    exact orderly.arrive
  | land i outcome => exact orderly.land ran
  | abort i => exact orderly.land (step?_abort c i ▸ ran)
  | wake i => exact orderly.wake ran

theorem run (orderly : c.Orderly) {moves : List Move} (ran : c.run? moves = some c') : c'.Orderly := by
  induction moves generalizing c with
  | nil =>
    cases ran
    exact orderly
  | cons move rest ih =>
    obtain ⟨next, stepped, ran⟩ := Option.bind_eq_some_iff.1 ran
    exact ih (orderly.step stepped) ran

end Orderly

/-! ## Waiting -/

/-- A caller that joined a leader's cycle waits, and these cycles have landed since. -/
structure Awaits (c : Crowd) (i leader : Nat) (generation : UInt64) (landed : List (Nat × Outcome)) : Prop where
  waits : c.callers[i]? = some (.waiting generation)
  counted : c.gate.generation = generation + UInt64.ofNat landed.length
  running : landed = [] → c.gate.running = true ∧ c.Leads leader
  own : ∀ own later, landed = own :: later → own.1 = leader
  latest : ∀ own later, landed = own :: later → c.gate.last = some ((later.map Prod.snd).getLastD own.2)

namespace Awaits

variable {c c' : Crowd} {i leader : Nat} {generation : UInt64} {landed : List (Nat × Outcome)}

theorem arrive (running : c.gate.running = true) (leads : c.Leads leader) :
    Awaits c.arrive c.callers.length leader c.gate.generation [] := by
  rw [arrive_of_running running]
  constructor
  case waits => exact List.getElem?_concat_length
  case counted => exact (UInt64.add_zero _).symm
  case running => exact fun _ => ⟨running, leads_append.2 (.inl leads)⟩
  case own => exact fun _ _ none => by cases none
  case latest => exact fun _ _ none => by cases none

theorem land (awaits : c.Awaits i leader generation landed) (orderly : c.Orderly) {j : Nat} {outcome : Outcome}
    (ran : c.step? (.land j outcome) = some c') : c'.Awaits i leader generation (landed ++ [(j, outcome)]) := by
  obtain ⟨leads, rfl⟩ := step?_land ran
  have apart : j ≠ i := by
    rintro rfl
    rw [Leads, awaits.waits] at leads
    cases leads
  constructor
  case waits => exact (List.getElem?_set_ne apart).trans awaits.waits
  case counted =>
    show c.gate.generation + 1 = _
    rw [awaits.counted, List.length_append, List.length_singleton, UInt64.ofNat_add, UInt64.add_assoc]
    rfl
  case running => exact fun none => absurd none (by simp)
  case own =>
    intro own later split
    cases landed with
    | nil =>
      -- The first cycle that lands is the one that was running.
      obtain ⟨rfl, -⟩ := List.cons.inj split
      exact orderly.unique j leader leads (awaits.running rfl).2
    | cons first rest =>
      obtain ⟨rfl, -⟩ := List.cons.inj split
      exact awaits.own first rest rfl
  case latest =>
    intro own later split
    show some outcome = _
    cases landed with
    | nil =>
      cases split
      rfl
    | cons first rest =>
      cases split
      simp

theorem step (awaits : c.Awaits i leader generation landed) (orderly : c.Orderly) {move : Move}
    (ran : c.step? move = some c') (asleep : move ≠ .wake i) :
    c'.Awaits i leader generation (landed ++ move.landing?.toList) := by
  cases move with
  | arrive =>
    cases ran
    have kept := getElem?_arrive awaits.waits
    rw [Move.landing?, Option.toList_none, List.append_nil]
    -- Somebody can take the lead only if the awaited cycle has landed.
    by_cases running : c.gate.running = true
    · rw [arrive_of_running running] at kept ⊢
      exact ⟨kept, awaits.counted, fun none => ⟨running, leads_append.2 (.inl (awaits.running none).2)⟩,
        awaits.own, awaits.latest⟩
    · rw [arrive_of_free running] at kept ⊢
      exact ⟨kept, awaits.counted, fun none => absurd (awaits.running none).1 running, awaits.own, awaits.latest⟩
  | land j outcome => exact awaits.land orderly ran
  | abort j => exact awaits.land orderly (step?_abort c j ▸ ran)
  | wake j =>
    obtain ⟨generation', told, waits, -, rfl⟩ := step?_wake ran
    have apart : j ≠ i := fun same => asleep (same ▸ rfl)
    rw [Move.landing?, Option.toList_none, List.append_nil]
    refine ⟨(List.getElem?_set_ne apart).trans awaits.waits, awaits.counted, fun none => ?_, awaits.own, awaits.latest⟩
    obtain ⟨running, leads⟩ := awaits.running none
    refine ⟨running, (leads_set (by nofun)).2 ⟨?_, leads⟩⟩
    rintro rfl
    rw [Leads, waits] at leads
    cases leads

theorem run (awaits : c.Awaits i leader generation landed) (orderly : c.Orderly) {moves : List Move}
    (ran : c.run? moves = some c') (asleep : .wake i ∉ moves) :
    c'.Awaits i leader generation (landed ++ landings moves) := by
  induction moves generalizing c landed with
  | nil =>
    cases ran
    rw [landings, List.filterMap_nil, List.append_nil]
    exact awaits
  | cons move rest ih =>
    obtain ⟨next, stepped, ran⟩ := Option.bind_eq_some_iff.1 ran
    rw [List.mem_cons, not_or] at asleep
    have later := ih (awaits.step orderly stepped (Ne.symm asleep.1)) (orderly.step stepped) ran asleep.2
    have first : landings (move :: rest) = move.landing?.toList ++ landings rest := by
      rw [landings, List.filterMap_cons]
      cases move.landing? <;> rfl
    rwa [first, ← List.append_assoc]

/-- While no cycle has landed, the caller does not wake up. -/
theorem step?_wake_eq_none (awaits : c.Awaits i leader generation []) : c.step? (.wake i) = none := by
  have same : c.gate.generation = generation := awaits.counted.trans (UInt64.add_zero _)
  simp [step?, awaits.waits, Gate.outcome?, Gate.holds, (awaits.running rfl).1, same]

/-- Once a cycle has landed, the caller may wake up, and is told of the latest one. -/
theorem step?_wake_of_landed {own : Nat × Outcome} {later : List (Nat × Outcome)}
    (awaits : c.Awaits i leader generation (own :: later)) (few : (own :: later).length < 2 ^ 64) :
    c.step? (.wake i) =
      some { c with callers := c.callers.set i (.joined ((later.map Prod.snd).getLastD own.2)) } := by
  -- The counter would have to come full circle to look as it did.
  have moved : c.gate.generation ≠ generation := by
    intro same
    have counted := awaits.counted
    rw [same] at counted
    have none := congrArg UInt64.toNat (UInt64.add_eq_left.1 counted.symm)
    rw [UInt64.toNat_ofNat_of_lt' few] at none
    cases none
  have open_ : c.gate.outcome? generation = some ((later.map Prod.snd).getLastD own.2) := by
    simp [Gate.outcome?, Gate.holds, moved, awaits.latest own later rfl]
  simp [step?, awaits.waits, open_]

end Awaits

/-! ## Outcomes -/

theorem joined?_of_step {c c' : Crowd} {i : Nat} {told : Outcome} (knows : c.callers[i]? = some (.joined told))
    {move : Move} (ran : c.step? move = some c') : c'.callers[i]? = some (.joined told) := by
  -- A move changes one caller at most, and none that has been told.
  have kept : ∀ j now, c.callers[j]? ≠ some (.joined told) →
      (c.callers.set j now)[i]? = some (.joined told) := by
    intro j now other
    rw [List.getElem?_set_ne]
    · exact knows
    · rintro rfl
      exact other knows
  have landed : ∀ j outcome, c.step? (.land j outcome) = some c' → c'.callers[i]? = some (.joined told) := by
    intro j outcome ran
    obtain ⟨leads, rfl⟩ := step?_land ran
    exact kept j _ fun wrong => by rw [leads] at wrong; cases wrong
  cases move with
  | arrive =>
    cases ran
    exact getElem?_arrive knows
  | land j outcome => exact landed j outcome ran
  | abort j => exact landed j _ (step?_abort c j ▸ ran)
  | wake j =>
    obtain ⟨generation, told', waits, -, rfl⟩ := step?_wake ran
    exact kept j _ fun wrong => by rw [waits] at wrong; cases wrong

theorem joined?_of_run {c c' : Crowd} {i : Nat} {told : Outcome} (knows : c.callers[i]? = some (.joined told))
    {moves : List Move} (ran : c.run? moves = some c') : c'.joined? i = some told := by
  induction moves generalizing c with
  | nil =>
    cases ran
    rw [joined?, knows]
  | cons move rest ih =>
    obtain ⟨next, stepped, ran⟩ := Option.bind_eq_some_iff.1 ran
    exact ih (joined?_of_step knows stepped) ran

/-- Whoever comes while a cycle runs waits for its leader to land it.  From then on it may wake up, and
is told for good how the latest cycle ended: its own, if no other has landed since. -/
theorem told_latest_outcome {early moves : List Move} {c c' : Crowd} (reached : run? {} early = some c)
    (running : c.gate.running = true) (ran : c.run? (.arrive :: moves) = some c')
    (asleep : .wake c.callers.length ∉ moves) (few : (landings moves).length < 2 ^ 64) :
    ∃ leader, c.callers[leader]? = some .leading ∧
      ((landings moves = [] ∧ c'.step? (.wake c.callers.length) = none) ∨
        ∃ own later woken, landings moves = (leader, own) :: later ∧
          c'.step? (.wake c.callers.length) = some woken ∧
          ∀ others final, woken.run? others = some final →
            final.joined? c.callers.length = some ((later.map Prod.snd).getLastD own)) := by
  have orderly : c.Orderly := Orderly.empty.run reached
  obtain ⟨leader, leads⟩ := orderly.running.1 running
  have awaits := (Awaits.arrive running leads).run orderly.arrive ran asleep
  rw [List.nil_append] at awaits
  refine ⟨leader, leads, ?_⟩
  cases split : landings moves with
  | nil =>
    rw [split] at awaits
    exact .inl ⟨rfl, awaits.step?_wake_eq_none⟩
  | cons own later =>
    rw [split] at awaits few
    obtain rfl : own.1 = leader := awaits.own own later rfl
    refine .inr ⟨own.2, later, _, rfl, awaits.step?_wake_of_landed few, fun others final ran => ?_⟩
    obtain ⟨present, -⟩ := List.getElem?_eq_some_iff.1 awaits.waits
    exact joined?_of_run (List.getElem?_set_self present) ran

/-- Somebody comes and wakes up between two cycles that fail. -/
theorem told_latest_outcome_of_own_cycle :
    let own : Outcome := .error .workerCrashed
    let later : Outcome := .error .cycleAborted
    ∃ c final : Crowd, run? {} [.arrive] = some c ∧ c.gate.running = true ∧
      c.run? [.arrive, .land 0 own, .wake 1, .arrive, .land 2 later] = some final ∧ final.joined? 1 = some own := by
  intro own later
  obtain ⟨leader, -, ⟨none, -⟩ | ⟨first, rest, woken, landed, ran, told⟩⟩ :=
    @told_latest_outcome [.arrive] [.land 0 own] _ _ rfl rfl rfl (by nofun) (by decide)
  · cases none
  · cases landed
    cases ran
    exact ⟨_, _, rfl, rfl, rfl, told [.arrive, .land 2 later] _ rfl⟩

/-- Somebody joins a cycle that fails, sleeps over the next one and is told that all went well. -/
theorem told_outcome_of_later_cycle :
    let own : Outcome := .error .workerCrashed
    ∃ c final : Crowd, run? {} [.arrive] = some c ∧ c.gate.running = true ∧ c.callers[0]? = some .leading ∧
      c.run? [.arrive, .land 0 own, .arrive, .land 2 (.ok ()), .wake 1] = some final ∧
      final.joined? 1 = some (.ok ()) ∧ final.joined? 1 ≠ some own :=
  ⟨_, _, rfl, rfl, rfl, rfl, rfl, nofun⟩

end Rollup.Crowd
