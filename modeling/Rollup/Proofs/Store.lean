import Rollup.Proofs.SortedMap
import Rollup.Store.Basic

/-!
# Scopes of a store

A write changes the entries of one scope and leaves every other scope alone.  Opening a child changes
no entries, and the child stands behind its parent (`openChild_eq`).

Which child a name opens depends on the tree alone (`openChild_congr`), so it is the same one again
after any writes.
-/

namespace Rollup.Store

variable (s : Store)

/-- The entries of a scope, as a map. -/
def buckets (id : ScopeId) : SortedMap Key Document := (s.scope id).values

theorem get?_eq (id : ScopeId) (key : Key) : s.get? id key = (s.buckets id).get? key := rfl

theorem length_set (id : ScopeId) (key : Key) (doc : Option Document) :
    (s.set id key doc).scopes.length = s.scopes.length := by
  cases doc <;> exact List.length_modify _ _ _

theorem scope_modify_of_ne {id other : ScopeId} (apart : other ≠ id) (f : Scope → Scope) :
    (s.modify id f).scope other = s.scope other := by
  simp only [scope, modify, List.getElem?_modify_ne f s.scopes apart.symm]

theorem scope_set_of_ne {id other : ScopeId} (apart : other ≠ id) (key : Key) (doc : Option Document) :
    (s.set id key doc).scope other = s.scope other := by
  cases doc <;> exact s.scope_modify_of_ne apart _

theorem buckets_set_of_ne {id other : ScopeId} (apart : other ≠ id) (key : Key) (doc : Option Document) :
    (s.set id key doc).buckets other = s.buckets other :=
  congrArg Scope.values (s.scope_set_of_ne apart key doc)

theorem appended_set (id : ScopeId) (key : Key) (doc : Option Document) (other : ScopeId) :
    ((s.set id key doc).scope other).appended = (s.scope other).appended := by
  by_cases same : other = id
  · subst same
    cases doc <;> simp only [scope, set, modify, List.getElem?_modify_eq] <;> cases s.scopes[other]? <;> rfl
  · rw [s.scope_set_of_ne same]

theorem buckets_set_self {id : ScopeId} (open_ : id < s.scopes.length) (key : Key) (d : Document) :
    (s.set id key (some d)).buckets id = (s.buckets id).insert key d := by
  simp only [buckets, scope, set, modify, List.getElem?_modify_eq, List.getElem?_eq_getElem open_,
    Option.getD_some]
  rfl

theorem buckets_erase_self {id : ScopeId} (open_ : id < s.scopes.length) (key : Key) :
    (s.set id key none).buckets id = (s.buckets id).erase key := by
  simp only [buckets, scope, set, modify, List.getElem?_modify_eq, List.getElem?_eq_getElem open_,
    Option.getD_some]
  rfl

/-! ## Children -/

/-- Every scope hangs below one that stands before it. -/
def Nested (s : Store) : Prop := ∀ id above name, (s.scope id).place = some (above, name) → above < id

theorem scope_of_length_le {id : ScopeId} (beyond : s.scopes.length ≤ id) : s.scope id = {} := by
  rw [scope, List.getElem?_eq_none beyond]
  rfl

theorem buckets_fresh (id : ScopeId) : ({} : Store).buckets id = .empty := by
  match id with
  | 0 => rfl
  | id + 1 =>
    rw [buckets, scope_of_length_le {} (Nat.succ_le_succ (Nat.zero_le id))]

theorem nested_fresh : Nested {} := by
  intro id above name place
  match id with
  | 0 => cases place
  | id + 1 =>
    rw [scope_of_length_le {} (Nat.succ_le_succ (Nat.zero_le id))] at place
    cases place

namespace Nested

variable {s : Store} (nested : s.Nested)

include nested

theorem deleteChild (id : ScopeId) (name : Key) : (s.deleteChild id name).Nested := by
  rw [Store.deleteChild]
  split
  · next child _ =>
    intro other above name' place
    refine nested other above name' ?_
    rw [scope, eraseTree, List.getElem?_mapIdx] at place
    rw [scope]
    cases found : s.scopes[other]? with
    | none =>
      rw [found] at place
      cases place
    | some x =>
      rw [found, Option.map_some, Option.getD_some] at place
      split at place
      · cases place
      · exact place
  · exact nested

end Nested

theorem scope_append (x : Scope) (id : ScopeId) :
    ({ s with scopes := s.scopes ++ [x] } : Store).scope id = if id = s.scopes.length then x else s.scope id := by
  split
  · next same =>
    rw [scope, same, List.getElem?_concat_length]
    rfl
  · next other =>
    rcases Nat.lt_or_gt_of_ne other with before | beyond
    · rw [scope, scope, List.getElem?_append_left before]
    · rw [s.scope_of_length_le (Nat.le_of_lt beyond), scope_of_length_le]
      rw [List.length_append]
      exact beyond

variable {s}

section OpenChild

variable (s) (id : ScopeId) (name : Key)

theorem buckets_openChild (other : ScopeId) : (s.openChild id name).2.buckets other = s.buckets other := by
  rw [openChild]
  cases s.child? id name with
  | some child => rfl
  | none =>
    show ({ s with scopes := s.scopes ++ [_] } : Store).buckets other = _
    rw [buckets, scope_append]
    split
    · next same =>
      rw [same, buckets, s.scope_of_length_le (Nat.le_refl _)]
    · rfl

theorem length_openChild_le : s.scopes.length ≤ (s.openChild id name).2.scopes.length := by
  rw [openChild]
  cases s.child? id name with
  | some child => exact Nat.le_refl _
  | none =>
    show _ ≤ (s.scopes ++ [_]).length
    rw [List.length_append]
    exact Nat.le_add_right _ _

/-- A child that is opened is a scope of the store. -/
theorem openChild_lt : (s.openChild id name).1 < (s.openChild id name).2.scopes.length := by
  rw [openChild]
  cases found : s.child? id name with
  | some child => exact (List.findIdx?_eq_some_iff_getElem.1 found).1
  | none =>
    show s.scopes.length < (s.scopes ++ [_]).length
    rw [List.length_append]
    exact Nat.lt_succ_self _

end OpenChild

/-- A child that is opened stands behind its parent, and no entries change. -/
theorem openChild_eq (nested : s.Nested) {id : ScopeId} (open_ : id < s.scopes.length) (name : Key) :
    ∃ child s', s.openChild id name = (child, s') ∧ id < child ∧ child < s'.scopes.length ∧
      s.scopes.length ≤ s'.scopes.length ∧ s'.Nested ∧ ∀ other, s'.buckets other = s.buckets other := by
  refine ⟨(s.openChild id name).1, (s.openChild id name).2, rfl, ?_, s.openChild_lt id name,
    s.length_openChild_le id name, ?_, s.buckets_openChild id name⟩
  · rw [openChild]
    cases found : s.child? id name with
    | some child =>
      obtain ⟨present, own, -⟩ := List.findIdx?_eq_some_iff_getElem.1 found
      apply nested child id name
      rw [scope, List.getElem?_eq_getElem present]
      exact of_decide_eq_true own
    | none => exact open_
  · intro other above name' place
    rw [openChild] at place
    cases found : s.child? id name with
    | some child =>
      rw [found] at place
      exact nested other above name' place
    | none =>
      rw [found, scope_append] at place
      split at place
      · next same =>
        cases place
        exact same ▸ open_
      · exact nested other above name' place

/-! ## The tree -/

variable (s) in
/-- Where the scopes of a store hang. -/
def places : List (Option (ScopeId × Key)) := s.scopes.map Scope.place

variable (s) in
theorem length_places : s.places.length = s.scopes.length := List.length_map _

variable (s) in
theorem child?_eq (id : ScopeId) (name : Key) :
    s.child? id name = s.places.findIdx? fun place => place = some (id, name) := by
  rw [places, List.findIdx?_map]
  rfl

/-- A store has the tree of another, and hands out the same marker next. -/
structure SameTree (s s' : Store) : Prop where
  places : s'.places = s.places
  marker : s'.nextMarker = s.nextMarker

variable {s' s'' : Store}

namespace SameTree

theorem refl (s : Store) : SameTree s s := ⟨rfl, rfl⟩

theorem trans (first : SameTree s s') (second : SameTree s' s'') : SameTree s s'' :=
  ⟨second.places.trans first.places, second.marker.trans first.marker⟩

theorem length_scopes (same : SameTree s s') : s'.scopes.length = s.scopes.length := by
  rw [← length_places, ← length_places, same.places]

end SameTree

variable (s) in
theorem places_modify (id : ScopeId) {f : Scope → Scope} (kept : ∀ x, (f x).place = x.place) :
    (s.modify id f).places = s.places := by
  rw [places, places]
  apply List.ext_getElem?
  intro i
  rw [List.getElem?_map, List.getElem?_map, modify, List.getElem?_modify]
  cases s.scopes[i]? with
  | none => rfl
  | some x =>
    simp only [Option.map_some]
    split
    · simp [kept]
    · rfl

variable (s) in
theorem sameTree_set (id : ScopeId) (key : Key) (doc : Option Document) : SameTree s (s.set id key doc) := by
  cases doc with
  | none => exact ⟨s.places_modify id fun _ => rfl, rfl⟩
  | some d => exact ⟨s.places_modify id fun _ => rfl, rfl⟩

/-- In one tree a name opens one child. -/
theorem openChild_congr (same : s'.places = s.places) (id : ScopeId) (name : Key) :
    (s'.openChild id name).1 = (s.openChild id name).1 := by
  have child : s'.child? id name = s.child? id name := by rw [child?_eq, child?_eq, same]
  rw [openChild, openChild, child]
  cases s.child? id name with
  | some child => rfl
  | none =>
    show s'.scopes.length = s.scopes.length
    rw [← length_places, ← length_places, same]

variable (s) in
theorem nextMarker_openChild (id : ScopeId) (name : Key) : (s.openChild id name).2.nextMarker = s.nextMarker := by
  rw [openChild]
  cases s.child? id name <;> rfl

variable (s) in
/-- A child that was opened is found again. -/
theorem openChild_openChild (id : ScopeId) (name : Key) :
    (s.openChild id name).2.openChild id name = s.openChild id name := by
  cases found : s.child? id name with
  | some child =>
    have opened : s.openChild id name = (child, s) := by rw [openChild, found]
    rw [opened, opened]
  | none =>
    have opened : s.openChild id name = (s.scopes.length,
        { s with scopes := s.scopes ++ [{ place := some (id, name), depth := (s.scope id).depth + 1 }] }) := by
      rw [openChild, found]
    rw [opened, openChild]
    have missing : s.scopes.findIdx? (fun x => x.place = some (id, name)) = none := found
    have again : ({ s with scopes := s.scopes ++
        [{ place := some (id, name), depth := (s.scope id).depth + 1 }] } : Store).child? id name =
          some s.scopes.length := by
      rw [child?, List.findIdx?_append, missing]
      simp
    rw [again]

/-- Scopes were opened under one name. -/
structure Grown (name : Key) (s s' : Store) : Prop where
  marker : s'.nextMarker = s.nextMarker
  place : ∀ id above other, (s'.scope id).place = some (above, other) →
    (s.scope id).place = some (above, other) ∨ other = name

namespace Grown

variable {name : Key}

theorem refl (name : Key) (s : Store) : Grown name s s := ⟨rfl, fun _ _ _ => .inl⟩

theorem trans (first : Grown name s s') (second : Grown name s' s'') : Grown name s s'' where
  marker := second.marker.trans first.marker
  place id above other place := (second.place id above other place).elim (first.place id above other) .inr

end Grown

variable (s) in
theorem grown_openChild (id : ScopeId) (name : Key) : Grown name s (s.openChild id name).2 where
  marker := s.nextMarker_openChild id name
  place other above name' place := by
    rw [openChild] at place
    cases found : s.child? id name with
    | some child =>
      rw [found] at place
      exact .inl place
    | none =>
      rw [found, scope_append] at place
      split at place
      · cases place
        exact .inr rfl
      · exact .inl place

/-- A name that no scope hangs under opens a scope behind all others. -/
theorem openChild_of_unplaced {id : ScopeId} {name : Key} (unplaced : ∀ other, (s.scope other).place ≠ some (id, name)) :
    (s.openChild id name).1 = s.scopes.length := by
  rw [openChild]
  cases found : s.child? id name with
  | none => rfl
  | some child =>
    obtain ⟨present, own, -⟩ := List.findIdx?_eq_some_iff_getElem.1 found
    have place := unplaced child
    rw [scope, List.getElem?_eq_getElem present] at place
    exact absurd (of_decide_eq_true own) place

/-! ## Appended entries -/

/-- An appended entry stands under the marker that the store hands out. -/
theorem append?_eq {id : ScopeId} (left : s.nextMarker < 0x8000000000000000) (open_ : id < s.scopes.length)
    (doc : Document) :
    ∃ s', s.append? id doc = some (Int64.ofNat s.nextMarker, s') ∧ s'.nextMarker = s.nextMarker + 1 ∧
      s'.places = s.places ∧
      s'.buckets id = (s.buckets id).insert (.numbered (Int64.ofNat s.nextMarker)) doc ∧
      ∀ other, other ≠ id → s'.buckets other = s.buckets other := by
  refine ⟨_, by rw [append?, if_pos left], rfl, ?_, ?_, ?_⟩
  · exact s.places_modify id fun _ => rfl
  · simp only [buckets, scope, modify, List.getElem?_modify_eq, List.getElem?_eq_getElem open_,
      Option.getD_some]
    rfl
  · intro other apart
    exact congrArg Scope.values (s.scope_modify_of_ne apart _)

end Rollup.Store
