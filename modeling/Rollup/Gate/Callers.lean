import Rollup.Gate.Basic

/-!
# Callers at a gate

A crowd is a gate with everybody who has come to it.  Callers move one at a time and in any order;
`Crowd.step?` tells what a move leads to, and refuses moves that are not open to the caller.

A caller that joined a cycle takes over an outcome only when it wakes up, which may be long after
the cycle has landed.
-/

namespace Rollup

/-- Where somebody stands who has come to a gate. -/
inductive Caller
  /-- Leads the running cycle. -/
  | leading
  /-- Joined in this generation and has not woken up since. -/
  | waiting (generation : UInt64)
  /-- Led a cycle, which has landed. -/
  | landed
  /-- Joined a cycle and has taken over this outcome. -/
  | joined (outcome : Outcome)

/-- A gate and its callers, in the order in which they came. -/
structure Crowd where
  gate : Gate := {}
  callers : List Caller := []

namespace Crowd

/-- One move of one caller. -/
inductive Move
  /-- Somebody new comes to the gate. -/
  | arrive
  /-- A leader ends its cycle with an outcome. -/
  | land (caller : Nat) (outcome : Outcome)
  /-- A leader crashes. -/
  | abort (caller : Nat)
  /-- A waiting caller looks whether it may go on. -/
  | wake (caller : Nat)

/-- Adds a caller. -/
def arrive (c : Crowd) : Crowd :=
  match c.gate.enter with
  | (.leads, gate) => ⟨gate, c.callers ++ [.leading]⟩
  | (.joins generation, gate) => ⟨gate, c.callers ++ [.waiting generation]⟩

/-- What a move leads to, if it is open. -/
def step? (c : Crowd) : Move → Option Crowd
  | .arrive => some c.arrive
  | .land i outcome =>
    match c.callers[i]? with
    | some .leading => some ⟨c.gate.land outcome, c.callers.set i .landed⟩
    | _ => none
  | .abort i =>
    match c.callers[i]? with
    | some .leading => some ⟨c.gate.abort, c.callers.set i .landed⟩
    | _ => none
  | .wake i =>
    match c.callers[i]? with
    | some (.waiting generation) =>
      (c.gate.outcome? generation).map fun outcome =>
        { c with callers := c.callers.set i (.joined outcome) }
    | _ => none

/-- What moves lead to one after the other, if all of them are open. -/
def run? (c : Crowd) (moves : List Move) : Option Crowd := moves.foldlM step? c

/-- The caller that leads. -/
def leader? (c : Crowd) : Option Nat :=
  c.callers.findIdx? fun
    | .leading => true
    | _ => false

/-- The callers that have not woken up. -/
def waiters (c : Crowd) : List Nat :=
  (List.range c.callers.length).filter fun i =>
    match c.callers[i]? with
    | some (.waiting _) => true
    | _ => false

/-- The outcome that a caller has taken over. -/
def joined? (c : Crowd) (i : Nat) : Option Outcome :=
  match c.callers[i]? with
  | some (.joined outcome) => some outcome
  | _ => none

end Crowd

end Rollup
