import Rollup.Action

/-!
# Access to the store

Each function asks the store of the world for one thing.  The store counts the call, and fails it if
its plan says so; a call that fails has no effect.
-/

namespace Rollup.Access

variable {σ : Type}

/-- Counts a call and lets the plan fail it. -/
def call (kind : CallKind) (scope : ScopeId) (key? : Option Key) : Action Error σ Unit := do
  let w ← Action.getWorld
  Action.modifyWorld fun w => { w with calls := w.calls + 1 }
  match w.plan w.calls ⟨scope, (w.store.scope scope).depth, kind, key?⟩ with
  | some f => Action.fail f
  | none => pure ()

/-- Changes the store. -/
def modifyStore (f : Store → Store) : Action Error σ Unit :=
  Action.modifyWorld fun w => { w with store := f w.store }

/-- Opens the scope below another under a name. -/
def openChild (scope : ScopeId) (name : Key) : Action Error σ ScopeId := do
  call .child scope (some name)
  let (child, store) := (← Action.getWorld).store.openChild scope name
  modifyStore fun _ => store
  return child

/-- Writes the document under a key, or drops the entry. -/
def set (scope : ScopeId) (key : Key) (doc : Option Document) : Action Error σ Unit := do
  call .set scope (some key)
  modifyStore fun s => s.set scope key doc

/-- The document under a key. -/
def get? (scope : ScopeId) (key : Key) : Action Error σ (Option Document) := do
  call .get scope (some key)
  return (← Action.getWorld).store.get? scope key

/-- All entries of a scope. -/
def entries (scope : ScopeId) : Action Error σ (List (Key × Document)) := do
  call .all scope none
  return (← Action.getWorld).store.entries scope

/-- The entries whose keys begin with a key. -/
def entriesUnder (scope : ScopeId) (front : Key) : Action Error σ (List (Key × Document)) := do
  call .under scope (some front)
  return (← Action.getWorld).store.entriesUnder scope front

/-- Stores a document under a fresh marker. -/
def append (scope : ScopeId) (doc : Document) : Action Error σ Int64 := do
  call .append scope none
  match (← Action.getWorld).store.append? scope doc with
  | some (marker, store) =>
    modifyStore fun _ => store
    return marker
  | none => Action.fail (.error .markersExhausted)

/-- The entries appended under markers above this one. -/
def appendedSince (scope : ScopeId) (marker : Int64) :
    Action Error σ (List (Key × Document)) := do
  call .since scope none
  return (← Action.getWorld).store.appendedSince scope marker

/-- Deletes the scope below another under a name. -/
def deleteChild (scope : ScopeId) (name : Key) : Action Error σ Unit := do
  call .delete scope (some name)
  modifyStore fun s => s.deleteChild scope name

/-- Waits until all writes are applied, which they are already. -/
def commit (scope : ScopeId) : Action Error σ Unit := call .commit scope none

end Rollup.Access
