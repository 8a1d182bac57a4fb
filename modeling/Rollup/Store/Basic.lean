import Rollup.Document
import Rollup.Key.Basic

/-!
# Stores

A store is a tree of scopes, each with entries of its own.  All scopes stand in one list, and a
scope is known by its place in that list, so whoever holds a `ScopeId` keeps naming the same scope.
Where a scope hangs in the tree is written in the scope itself (`place`).

Deleting a scope empties it and everything below it and takes them out of the tree.  They stay in
the list: an old id then names an empty scope that hangs nowhere, and opening a child of the same
name makes a new one.

Appended entries are kept under markers, which one counter of the store hands out to all scopes.
-/

namespace Rollup

/-- The place of a scope in the list of a store. -/
abbrev ScopeId := Nat

/-- One scope. -/
structure Scope where
  /-- The scope above and the name below it; a root and a deleted scope hang nowhere. -/
  place : Option (ScopeId × Key) := none
  /-- How many scopes were above it when it was made. -/
  depth : Nat := 0
  values : SortedMap Key Document := .empty
  /-- The markers handed out in this scope, in ascending order. -/
  appended : List Int64 := []
deriving Repr

/-- A tree of scopes, whose root is the scope 0. -/
structure Store where
  scopes : List Scope := [{}]
  /-- The marker of the next appended entry. -/
  nextMarker : Nat := 0
deriving Repr

namespace Store

/-- The root scope. -/
def root : ScopeId := 0

/-- The scope with an id; ids that were never handed out name an empty one. -/
def scope (s : Store) (id : ScopeId) : Scope := s.scopes[id]?.getD {}

/-- Changes one scope. -/
def modify (s : Store) (id : ScopeId) (f : Scope → Scope) : Store :=
  { s with scopes := s.scopes.modify id f }

/-! ## Entries -/

/-- The document under a key. -/
def get? (s : Store) (id : ScopeId) (key : Key) : Option Document := (s.scope id).values.get? key

/-- Writes the document under a key, or drops the entry. -/
def set (s : Store) (id : ScopeId) (key : Key) : Option Document → Store
  | some doc => s.modify id fun x => { x with values := x.values.insert key doc }
  | none => s.modify id fun x => { x with values := x.values.erase key }

/-- All entries of a scope, in key order. -/
def entries (s : Store) (id : ScopeId) : List (Key × Document) := (s.scope id).values.toList

/-- The entries whose keys begin with a key.  They stand together in key order, the key itself
first. -/
def entriesUnder (s : Store) (id : ScopeId) (front : Key) : List (Key × Document) :=
  -- No key in front of `front` begins with it, since a key comes before its extensions.
  ((s.entries id).dropWhile fun e => compare e.1 front = .lt).takeWhile fun e =>
    e.1.startsWith front

/-- The number of entries of a scope. -/
def size (s : Store) (id : ScopeId) : Nat := (s.scope id).values.size

/-! ## Appended entries -/

/-- Stores a document under a fresh marker, unless the markers are used up. -/
def append? (s : Store) (id : ScopeId) (doc : Document) : Option (Int64 × Store) :=
  if s.nextMarker < 0x8000000000000000 then
    let marker := Int64.ofNat s.nextMarker
    let s := s.modify id fun x =>
      { x with
        values := x.values.insert (.numbered marker) doc
        appended := x.appended ++ [marker] }
    some (marker, { s with nextMarker := s.nextMarker + 1 })
  else none

/-- The entries appended under markers above this one that are still there. -/
def appendedSince (s : Store) (id : ScopeId) (marker : Int64) : List (Key × Document) :=
  ((s.scope id).appended.filter (marker < ·)).filterMap fun m =>
    (s.get? id (.numbered m)).map fun doc => (.numbered m, doc)

/-! ## The tree -/

/-- The scope that hangs below another under a name. -/
def child? (s : Store) (id : ScopeId) (name : Key) : Option ScopeId :=
  s.scopes.findIdx? fun x => x.place = some (id, name)

/-- Opens the scope below another under a name, which is made if there is none. -/
def openChild (s : Store) (id : ScopeId) (name : Key) : ScopeId × Store :=
  match s.child? id name with
  | some child => (child, s)
  | none =>
    let child : Scope := { place := some (id, name), depth := (s.scope id).depth + 1 }
    (s.scopes.length, { s with scopes := s.scopes ++ [child] })

/-- Whether a scope is `top` or hangs below it, looking at most `steps` scopes up. -/
def hangsWithin (s : Store) (top : ScopeId) : Nat → ScopeId → Bool
  | 0, id => id = top
  | steps + 1, id =>
    id = top ||
      match (s.scope id).place with
      | some (above, _) => s.hangsWithin top steps above
      | none => false

/-- Whether a scope is `top` or hangs below it.  No scope hangs deeper than it was made. -/
def isWithin (s : Store) (top id : ScopeId) : Bool := s.hangsWithin top (s.scope id).depth id

/-- Empties a scope and everything below it, and takes them out of the tree. -/
def eraseTree (s : Store) (top : ScopeId) : Store :=
  { s with
    scopes := s.scopes.mapIdx fun id x => if s.isWithin top id then { depth := x.depth } else x }

/-- Deletes the scope below another under a name, if there is one. -/
def deleteChild (s : Store) (id : ScopeId) (name : Key) : Store :=
  match s.child? id name with
  | some child => s.eraseTree child
  | none => s

end Store

end Rollup
