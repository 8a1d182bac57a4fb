import Rollup.Error
import Rollup.Metrics
import Rollup.Store.Basic

/-!
# Actions

An `Action` is a computation over a local state and the `World`, which is what all computations
share: the store, the plan of its failures and the events so far.  A computation may fail with an
error or crash; what it did before stays done.

`Action.zoom` runs a computation on a part of the local state, and `Action.attempt` turns a failure
into a value.
-/

namespace Rollup

/-- How a computation ends early. -/
inductive Failure (ε : Type)
  | error (e : ε)
  | crash
deriving Repr, DecidableEq

/-- What a store is asked to do. -/
inductive CallKind
  | child
  | set
  | get
  | all
  | under
  | append
  | since
  | delete
  | commit
deriving Repr, DecidableEq

/-- A request to a scope. -/
structure Call where
  scope : ScopeId
  depth : Nat
  kind : CallKind
  key? : Option Key
deriving Repr, DecidableEq

/-- Which calls fail, by the number of calls before. -/
abbrev FaultPlan := Nat → Call → Option (Failure Error)

/-- The plan of a store that never fails. -/
def FaultPlan.never : FaultPlan := fun _ _ => none

/-- What all computations share. -/
structure World where
  store : Store := {}
  plan : FaultPlan := .never
  /-- The number of calls that the store has had. -/
  calls : Nat := 0
  /-- What was reported, the oldest first. -/
  events : Array Event := #[]

namespace World

/-- Reports an event. -/
def record (w : World) (e : Event) : World := { w with events := w.events.push e }

end World

/-- A computation on a local state and the world. -/
abbrev Action (ε σ : Type) (α : Type) := ExceptT (Failure ε) (StateM (σ × World)) α

namespace Action

variable {ε δ σ τ α : Type}

/-- Runs a computation. -/
def run (act : Action ε σ α) (s : σ) (w : World) : Except (Failure ε) α × σ × World :=
  (ExceptT.run act).run (s, w)

/-- The computation with this meaning. -/
def ofRun (f : σ → World → Except (Failure ε) α × σ × World) : Action ε σ α :=
  ExceptT.mk fun p => f p.1 p.2

@[simp] theorem run_ofRun (f : σ → World → Except (Failure ε) α × σ × World) (s : σ) (w : World) :
    (ofRun f).run s w = f s w := rfl

/-- Reads the local state. -/
def getLocal : Action ε σ σ := ofRun fun s w => (.ok s, s, w)

/-- Changes the local state. -/
def modifyLocal (f : σ → σ) : Action ε σ Unit := ofRun fun s w => (.ok (), f s, w)

/-- Reads the world. -/
def getWorld : Action ε σ World := ofRun fun s w => (.ok w, s, w)

/-- Changes the world. -/
def modifyWorld (f : World → World) : Action ε σ Unit := ofRun fun s w => (.ok (), s, f w)

/-- Ends early. -/
def fail (f : Failure ε) : Action ε σ α := ofRun fun s w => (.error f, s, w)

/-- Gives the end of a computation as a value. -/
def attempt (act : Action ε σ α) : Action δ σ (Except (Failure ε) α) :=
  ofRun fun s w => let r := act.run s w; (.ok r.1, r.2)

/-- Runs a computation on a part of the local state. -/
def zoom (view : σ → τ) (update : τ → σ → σ) (act : Action ε τ α) : Action ε σ α :=
  ofRun fun s w => let r := act.run (view s) w; (r.1, update r.2.1 s, r.2.2)

/-- Changes the errors of a computation. -/
def mapError (f : ε → δ) (act : Action ε σ α) : Action δ σ α :=
  ofRun fun s w =>
    match act.run s w with
    | (.ok x, rest) => (.ok x, rest)
    | (.error (.error e), rest) => (.error (.error (f e)), rest)
    | (.error .crash, rest) => (.error .crash, rest)

/-- Reports an event. -/
def record (e : Event) : Action ε σ Unit := modifyWorld fun w => w.record e

/-- The value of a check, or its error. -/
def ofExcept : Except ε α → Action ε σ α
  | .ok x => pure x
  | .error e => fail (.error e)

/-! ## How computations run

A proof about a computation unfolds it through these equations and not through its monad. -/

variable (s : σ) (w : World)

@[simp] theorem run_pure (x : α) : (pure x : Action ε σ α).run s w = (.ok x, s, w) := rfl

theorem run_bind {β : Type} (act : Action ε σ α) (next : α → Action ε σ β) :
    (act >>= next).run s w =
      match act.run s w with
      | (.ok x, s, w) => (next x).run s w
      | (.error f, rest) => (.error f, rest) := by
  simp only [run, ExceptT.run, bind, ExceptT.bind, ExceptT.mk, StateT.bind, StateT.run]
  -- The rest of the computation depends on the outcome alone.
  generalize act (s, w) = r
  obtain ⟨x | x, s, w⟩ := r <;> rfl

@[simp] theorem run_getLocal : (getLocal : Action ε σ σ).run s w = (.ok s, s, w) := rfl

@[simp] theorem run_modifyLocal (f : σ → σ) :
    (modifyLocal f : Action ε σ Unit).run s w = (.ok (), f s, w) := rfl

@[simp] theorem run_getWorld : (getWorld : Action ε σ World).run s w = (.ok w, s, w) := rfl

@[simp] theorem run_modifyWorld (f : World → World) :
    (modifyWorld f : Action ε σ Unit).run s w = (.ok (), s, f w) := rfl

@[simp] theorem run_fail (f : Failure ε) : (fail f : Action ε σ α).run s w = (.error f, s, w) := rfl

@[simp] theorem run_attempt (act : Action ε σ α) :
    (attempt act : Action δ σ (Except (Failure ε) α)).run s w =
      (.ok (act.run s w).1, (act.run s w).2) := rfl

@[simp] theorem run_zoom (view : σ → τ) (update : τ → σ → σ) (act : Action ε τ α) :
    (zoom view update act).run s w =
      ((act.run (view s) w).1, update (act.run (view s) w).2.1 s, (act.run (view s) w).2.2) := rfl

@[simp] theorem run_record (e : Event) :
    (record e : Action ε σ Unit).run s w = (.ok (), s, w.record e) := rfl

end Action

end Rollup
