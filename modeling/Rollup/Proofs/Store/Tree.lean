import Rollup.Proofs.Store

/-!
# The tree of a store

A store is a `Tree` if every scope hangs below one that stands before it and no two hang in one
place.  Every call keeps it a tree.  A scope that is opened and was not there stands behind all
others and is empty (`Widened`), also where one of its name has been deleted before.
-/

namespace Rollup.Store

variable {s s' s'' : Store} {id above : ScopeId} {name : Key}

/-! ## Places -/

theorem place_eq (s : Store) (id : ScopeId) : (s.scope id).place = (s.places[id]?).join := by
  rw [places, List.getElem?_map, scope]
  cases s.scopes[id]? <;> rfl

theorem child?_eq_none : s.child? above name = none ↔ ∀ id, (s.scope id).place ≠ some (above, name) := by
  rw [child?, List.findIdx?_eq_none_iff]
  constructor
  · intro missing id place
    rw [scope] at place
    cases found : s.scopes[id]? with
    | none =>
      rw [found] at place
      cases place
    | some x =>
      rw [found] at place
      exact absurd place (of_decide_eq_false (missing x (List.mem_of_getElem? found)))
  · intro missing x mem
    obtain ⟨id, found⟩ := List.mem_iff_getElem?.1 mem
    have place := missing id
    rw [scope, found] at place
    exact decide_eq_false place

theorem place_of_child? (found : s.child? above name = some id) :
    id < s.scopes.length ∧ (s.scope id).place = some (above, name) := by
  obtain ⟨present, own, -⟩ := List.findIdx?_eq_some_iff_getElem.1 found
  refine ⟨present, ?_⟩
  rw [scope, List.getElem?_eq_getElem present]
  exact of_decide_eq_true own

/-- Every scope hangs below one that stands before it, and no two hang in one place. -/
structure Tree (s : Store) : Prop where
  nested : s.Nested
  apart : ∀ id other place, (s.scope id).place = some place → (s.scope other).place = some place → id = other
  rooted : root < s.scopes.length

theorem tree_fresh : Tree {} where
  nested := nested_fresh
  apart id other place hangs _ := by
    match id with
    | 0 => cases hangs
    | id + 1 =>
      rw [scope_of_length_le {} (Nat.succ_le_succ (Nat.zero_le id))] at hangs
      cases hangs
  rooted := Nat.zero_lt_one

theorem Tree.of_places (tree : s.Tree) (same : s'.places = s.places) : s'.Tree where
  nested id above name place := by
    rw [place_eq, same, ← place_eq] at place
    exact tree.nested id above name place
  apart id other place hangs hangs' := by
    rw [place_eq, same, ← place_eq] at hangs hangs'
    exact tree.apart id other place hangs hangs'
  rooted := by
    rw [← length_places, same, length_places]
    exact tree.rooted

/-- Nothing hangs below the scope that stands last. -/
theorem Tree.childless_last (tree : s.Tree) (last : s.scopes.length ≤ above + 1) (id : ScopeId) (name : Key) :
    (s.scope id).place ≠ some (above, name) := by
  intro hangs
  have behind : above < id := tree.nested id above name hangs
  rw [s.scope_of_length_le (Nat.le_trans last behind)] at hangs
  cases hangs

/-! ## Opening -/

/-- Empty scopes were added behind the others. -/
structure Widened (s s' : Store) : Prop where
  marker : s'.nextMarker = s.nextMarker
  length : s.scopes.length ≤ s'.scopes.length
  old : ∀ id, id < s.scopes.length → s'.scope id = s.scope id
  values : ∀ id, s.scopes.length ≤ id → (s'.scope id).values = .empty
  appended : ∀ id, s.scopes.length ≤ id → (s'.scope id).appended = []

namespace Widened

theorem refl (s : Store) : Widened s s where
  marker := rfl
  length := Nat.le_refl _
  old _ _ := rfl
  values id beyond := by rw [s.scope_of_length_le beyond]
  appended id beyond := by rw [s.scope_of_length_le beyond]

theorem trans (first : Widened s s') (later : Widened s' s'') : Widened s s'' where
  marker := later.marker.trans first.marker
  length := Nat.le_trans first.length later.length
  old id here := (later.old id (Nat.lt_of_lt_of_le here first.length)).trans (first.old id here)
  values id beyond := by
    rcases Nat.lt_or_ge id s'.scopes.length with here | there
    · rw [later.old id here, first.values id beyond]
    · exact later.values id there
  appended id beyond := by
    rcases Nat.lt_or_ge id s'.scopes.length with here | there
    · rw [later.old id here, first.appended id beyond]
    · exact later.appended id there

variable (widened : Widened s s') (id : ScopeId)

include widened

/-- No entries change. -/
theorem buckets_eq : s'.buckets id = s.buckets id := by
  rcases Nat.lt_or_ge id s.scopes.length with here | beyond
  · rw [buckets, buckets, widened.old id here]
  · rw [buckets, buckets, widened.values id beyond, s.scope_of_length_le beyond]

theorem appended_eq : (s'.scope id).appended = (s.scope id).appended := by
  rcases Nat.lt_or_ge id s.scopes.length with here | beyond
  · rw [widened.old id here]
  · rw [widened.appended id beyond, s.scope_of_length_le beyond]

end Widened

theorem openChild_of_none (missing : s.child? above name = none) :
    s.openChild above name = (s.scopes.length,
      { s with scopes := s.scopes ++ [{ place := some (above, name), depth := (s.scope above).depth + 1 }] }) := by
  rw [openChild, missing]

theorem widened_openChild (s : Store) (above : ScopeId) (name : Key) : Widened s (s.openChild above name).2 := by
  cases found : s.child? above name with
  | some child =>
    rw [openChild, found]
    exact .refl s
  | none =>
    rw [openChild_of_none found]
    constructor
    case marker => rfl
    case length => simp
    case old =>
      intro id here
      rw [scope_append, if_neg (Nat.ne_of_lt here)]
    case values =>
      intro id beyond
      rw [scope_append]
      split
      · rfl
      · rw [s.scope_of_length_le beyond]
    case appended =>
      intro id beyond
      rw [scope_append]
      split
      · rfl
      · rw [s.scope_of_length_le beyond]

/-- Opening a child keeps a tree. -/
theorem Tree.openChild (tree : s.Tree) (here : above < s.scopes.length) (name : Key) : (s.openChild above name).2.Tree := by
  obtain ⟨child, s', opened, -, -, length, nested, -⟩ := openChild_eq tree.nested here name
  rw [opened]
  refine ⟨nested, ?_, Nat.lt_of_lt_of_le tree.rooted length⟩
  cases found : s.child? above name with
  | some child =>
    rw [Store.openChild, found] at opened
    cases opened
    exact tree.apart
  | none =>
    rw [openChild_of_none found] at opened
    cases opened
    have missing := child?_eq_none.1 found
    intro id other place hangs hangs'
    rw [scope_append] at hangs hangs'
    split at hangs
    · next own =>
      cases hangs
      split at hangs'
      · next own' => rw [own, own']
      · exact absurd hangs' (missing other)
    · split at hangs'
      · cases hangs'
        exact absurd hangs (missing id)
      · exact tree.apart id other place hangs hangs'

/-- A scope hangs where it was opened. -/
theorem place_openChild (s : Store) (above : ScopeId) (name : Key) :
    ((s.openChild above name).2.scope (s.openChild above name).1).place = some (above, name) := by
  cases found : s.child? above name with
  | some child =>
    rw [openChild, found]
    exact (place_of_child? found).2
  | none =>
    rw [openChild_of_none found, scope_append, if_pos rfl]

/-- What hangs somewhere after a scope was opened hung there before, or is that scope. -/
theorem place_of_openChild {place : ScopeId × Key}
    (hangs : ((s.openChild above name).2.scope id).place = some place) :
    (s.scope id).place = some place ∨ place = (above, name) := by
  cases found : s.child? above name with
  | some child =>
    rw [openChild, found] at hangs
    exact .inl hangs
  | none =>
    rw [openChild_of_none found, scope_append] at hangs
    split at hangs
    · exact .inr (Option.some.inj hangs).symm
    · exact .inl hangs

/-! ## Deleting -/

theorem scope_eraseTree (s : Store) (top id : ScopeId) :
    (s.eraseTree top).scope id = if s.isWithin top id then { depth := (s.scope id).depth } else s.scope id := by
  rw [scope, eraseTree, List.getElem?_mapIdx, scope]
  cases found : s.scopes[id]? with
  | none => split <;> rfl
  | some x =>
    simp only [Option.map_some, Option.getD_some]

theorem isWithin_self (s : Store) (id : ScopeId) : s.isWithin id id = true := by
  rw [isWithin]
  cases (s.scope id).depth <;> simp [hangsWithin]

theorem length_deleteChild (s : Store) (above : ScopeId) (name : Key) :
    (s.deleteChild above name).scopes.length = s.scopes.length := by
  rw [deleteChild]
  cases s.child? above name with
  | none => rfl
  | some child => exact List.length_mapIdx

theorem nextMarker_deleteChild (s : Store) (above : ScopeId) (name : Key) :
    (s.deleteChild above name).nextMarker = s.nextMarker := by
  rw [deleteChild]
  cases s.child? above name <;> rfl

/-- What hangs somewhere after a deletion hung there before. -/
theorem place_of_deleteChild {place : ScopeId × Key}
    (hangs : ((s.deleteChild above name).scope id).place = some place) : (s.scope id).place = some place := by
  rw [deleteChild] at hangs
  cases found : s.child? above name with
  | none =>
    rw [found] at hangs
    exact hangs
  | some child =>
    simp only [found, scope_eraseTree] at hangs
    split at hangs
    · cases hangs
    · exact hangs

theorem Tree.deleteChild (tree : s.Tree) (above : ScopeId) (name : Key) : (s.deleteChild above name).Tree where
  nested := tree.nested.deleteChild above name
  apart id other place hangs hangs' :=
    tree.apart id other place (place_of_deleteChild hangs) (place_of_deleteChild hangs')
  rooted := by
    rw [length_deleteChild]
    exact tree.rooted

/-- A name that was deleted is free. -/
theorem Tree.child?_deleteChild (tree : s.Tree) (above : ScopeId) (name : Key) :
    (s.deleteChild above name).child? above name = none := by
  rw [child?_eq_none]
  intro id hangs
  have before := place_of_deleteChild hangs
  cases found : s.child? above name with
  | none => exact child?_eq_none.1 found id before
  | some child =>
    obtain rfl := tree.apart id child _ before (place_of_child? found).2
    rw [Store.deleteChild, found] at hangs
    simp [scope_eraseTree, isWithin_self] at hangs

/-! ## Old scopes -/

/-- No scope is gone, and none hangs where it did not. -/
structure Kept (s s' : Store) : Prop where
  length : s.scopes.length ≤ s'.scopes.length
  place : ∀ id, id < s.scopes.length → ∀ place, (s'.scope id).place = some place → (s.scope id).place = some place

namespace Kept

theorem of_places (same : s'.places = s.places) : Kept s s' where
  length := by
    have lengths : s'.scopes.length = s.scopes.length := by rw [← length_places, same, length_places]
    exact Nat.le_of_eq lengths.symm
  place id _ place hangs := by rwa [place_eq, same, ← place_eq] at hangs

theorem trans (first : Kept s s') (later : Kept s' s'') : Kept s s'' where
  length := Nat.le_trans first.length later.length
  place id here place hangs :=
    first.place id here place (later.place id (Nat.lt_of_lt_of_le here first.length) place hangs)

end Kept

theorem Widened.kept (widened : Widened s s') : Kept s s' where
  length := widened.length
  place id here place hangs := by rwa [widened.old id here] at hangs

theorem kept_deleteChild (s : Store) (above : ScopeId) (name : Key) : Kept s (s.deleteChild above name) where
  length := Nat.le_of_eq (s.length_deleteChild above name).symm
  place _ _ _ hangs := place_of_deleteChild hangs

/-! ## Appending -/

/-- An append changes no place, and hands out the next marker. -/
theorem append?_kept {doc : Document} {marker : Int64} (made : s.append? id doc = some (marker, s')) :
    s'.places = s.places ∧ s.nextMarker < 0x8000000000000000 ∧ marker.toInt = s.nextMarker ∧ s'.nextMarker = s.nextMarker + 1 := by
  rw [append?] at made
  split at made
  · next left =>
    cases made
    exact ⟨s.places_modify id fun _ => rfl, left, Int64.toInt_ofNat_of_lt left, rfl⟩
  · cases made

theorem appended_append? {doc : Document} {marker : Int64} (made : s.append? id doc = some (marker, s'))
    (here : id < s.scopes.length) :
    (s'.scope id).appended = (s.scope id).appended ++ [marker] ∧
      ∀ other, other ≠ id → (s'.scope other).appended = (s.scope other).appended := by
  rw [append?] at made
  split at made
  · cases made
    constructor
    · simp only [scope, modify, List.getElem?_modify_eq, List.getElem?_eq_getElem here, Option.getD_some]
      rfl
    · intro other apart
      exact congrArg Scope.appended (s.scope_modify_of_ne apart _)
  · cases made

end Rollup.Store
