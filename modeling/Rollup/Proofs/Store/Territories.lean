import Rollup.Proofs.Store.Handles

/-!
# Territories

The scopes that hang below a name of the root are its `Territory`.  Those of different names have no
scope in common (`Territory.apart`).

A territory is `Spared` by what is done elsewhere: no scope comes or goes there, and its entries stay.
What hangs below a scope `Outside` is outside too, so whoever has scopes there opens no others.
-/

namespace Rollup.Store

variable {s s' s'' : Store} {id above top : ScopeId} {name other : String} {key : Key}

theorem Tree.root_unplaced (tree : s.Tree) : (s.scope root).place = none := by
  cases hangs : (s.scope root).place with
  | none => rfl
  | some place => exact absurd (tree.nested root place.1 place.2 hangs) (Nat.not_lt_zero _)

/-! ## Territories -/

/-- A scope is the one of a name below the root, or hangs below that one. -/
def Territory (s : Store) (name : String) (id : ScopeId) : Prop := s.Below root (.named name) id

namespace Territory

theorem ne_root (territory : s.Territory name id) (tree : s.Tree) : id ≠ root := by
  rintro rfl
  obtain ⟨child, found, within⟩ := territory
  obtain rfl := within.eq_of_unplaced tree.root_unplaced
  have place := (place_of_child? found).2
  rw [tree.root_unplaced] at place
  cases place

theorem of_place (territory : s.Territory name above) (place : (s.scope id).place = some (above, key)) :
    s.Territory name id := by
  obtain ⟨child, found, within⟩ := territory
  exact ⟨child, found, .under place within⟩

/-- What is in a territory is its top or hangs below a scope of it. -/
theorem parent (territory : s.Territory name id) (place : (s.scope id).place = some (above, key)) :
    above = root ∧ key = .named name ∨ s.Territory name above := by
  obtain ⟨child, found, within⟩ := territory
  cases within with
  | self => exact .inl (Prod.mk.inj (Option.some.inj (place.symm.trans (place_of_child? found).2)))
  | under place' within =>
    obtain ⟨rfl, rfl⟩ := Prod.mk.inj (Option.some.inj (place.symm.trans place'))
    exact .inr ⟨child, found, within⟩

/-- The territories of two names have no scope in common. -/
theorem apart (territory : s.Territory name id) (tree : s.Tree) (differ : other ≠ name) : ¬ s.Territory other id := by
  -- Of two scopes below the root, neither is within the other.
  have top {a b : ScopeId} {n n' : Key} (place : (s.scope a).place = some (root, n))
      (place' : (s.scope b).place = some (root, n')) (within : s.Within a b) : a = b := by
    cases within with
    | self => rfl
    | under higher within =>
      obtain ⟨rfl, rfl⟩ := Prod.mk.inj (Option.some.inj (place'.symm.trans higher))
      rw [← within.eq_of_unplaced tree.root_unplaced, tree.root_unplaced] at place
      cases place
  rintro ⟨child', found', within'⟩
  obtain ⟨child, found, within⟩ := territory
  have place := (place_of_child? found).2
  have place' := (place_of_child? found').2
  have same : child = child' :=
    (within.linear within').elim (top place place') fun inside => (top place' place inside).symm
  subst same
  rw [place, Option.some.injEq, Prod.mk.injEq] at place'
  exact differ (by simpa [Key.named] using place'.2.symm)

end Territory

/-! ## Sparing a territory -/

/-- What was done spared the territory of a name: it has the scopes that it had, where they hung and with the
same entries. -/
structure Spared (s s' : Store) (name : String) : Prop where
  marker : s.nextMarker ≤ s'.nextMarker
  kept : Kept s s'
  child : s'.child? root (.named name) = s.child? root (.named name)
  hangs : ∀ id above key, s.Territory name above →
    ((s'.scope id).place = some (above, key) ↔ (s.scope id).place = some (above, key))
  buckets : ∀ id, s.Territory name id → s'.buckets id = s.buckets id
  appended : ∀ id, s.Territory name id → (s'.scope id).appended = (s.scope id).appended

namespace Spared

theorem refl (s : Store) (name : String) : Spared s s name where
  marker := Nat.le_refl _
  kept := .of_places rfl
  child := rfl
  hangs _ _ _ _ := Iff.rfl
  buckets _ _ := rfl
  appended _ _ := rfl

theorem territory (spared : Spared s s' name) : s'.Territory name id ↔ s.Territory name id := by
  constructor
  · rintro ⟨child, found, within⟩
    rw [spared.child] at found
    induction within with
    | self => exact ⟨child, found, .self⟩
    | @under id above key place _ ih => exact ih.of_place ((spared.hangs id above key ih).1 place)
  · rintro ⟨child, found, within⟩
    have found' := spared.child.trans found
    induction within with
    | self => exact ⟨child, found', .self⟩
    | @under id above key place within ih =>
      exact ih.of_place ((spared.hangs id above key ⟨child, found, within⟩).2 place)

theorem trans (first : Spared s s' name) (later : Spared s' s'' name) : Spared s s'' name where
  marker := Nat.le_trans first.marker later.marker
  kept := first.kept.trans later.kept
  child := later.child.trans first.child
  hangs id above key territory :=
    (later.hangs id above key (first.territory.2 territory)).trans (first.hangs id above key territory)
  buckets id territory := (later.buckets id (first.territory.2 territory)).trans (first.buckets id territory)
  appended id territory := (later.appended id (first.territory.2 territory)).trans (first.appended id territory)

/-- Writes elsewhere spare a territory. -/
theorem of_places (places : s'.places = s.places) (marker : s.nextMarker ≤ s'.nextMarker)
    (buckets : ∀ id, s.Territory name id → s'.buckets id = s.buckets id)
    (appended : ∀ id, s.Territory name id → (s'.scope id).appended = (s.scope id).appended) : Spared s s' name where
  marker := marker
  kept := .of_places places
  child := by rw [child?_eq, child?_eq, places]
  hangs id _ _ _ := by rw [place_eq, places, ← place_eq]
  buckets := buckets
  appended := appended

/-- So does opening a scope below one that is not of the territory. -/
theorem opens (tree : s.Tree) (here : above < s.scopes.length) (outside : ¬ s.Territory name above)
    (differ : (above, key) ≠ (root, .named name)) : Spared s (s.openChild above key).2 name := by
  have widened := s.widened_openChild above key
  cases found : s.child? above key with
  | some child =>
    rw [openChild, found]
    exact .refl s name
  | none =>
    have hangs (id upper : ScopeId) (k : Key) (elsewhere : (upper, k) ≠ (above, key)) :
        ((s.openChild above key).2.scope id).place = some (upper, k) ↔ (s.scope id).place = some (upper, k) := by
      rw [openChild_of_none found, scope_append]
      split
      · next last =>
        rw [last, s.scope_of_length_le (Nat.le_refl _)]
        exact ⟨fun hangs => absurd (Option.some.inj hangs).symm elsewhere, fun hangs => by cases hangs⟩
      · exact Iff.rfl
    constructor
    case marker => exact Nat.le_of_eq widened.marker.symm
    case kept => exact widened.kept
    case child =>
      ext child
      rw [(tree.openChild here key).child?_eq_some, tree.child?_eq_some]
      exact hangs child root (.named name) differ.symm
    case hangs =>
      refine fun id upper k territory => hangs id upper k fun same => outside ?_
      rwa [← (Prod.mk.inj same).1]
    case buckets => exact fun id _ => widened.buckets_eq id
    case appended => exact fun id _ => widened.appended_eq id

/-- So does deleting the scope of another name. -/
theorem deletes (tree : s.Tree) (differ : other ≠ name) : Spared s (s.deleteChild root (.named other)) name := by
  have scope (id : ScopeId) (territory : s.Territory name id) :
      (s.deleteChild root (.named other)).scope id = s.scope id :=
    scope_deleteChild (territory.apart tree differ)
  constructor
  case marker => exact Nat.le_of_eq (s.nextMarker_deleteChild _ _).symm
  case kept => exact s.kept_deleteChild _ _
  case child =>
    refine child?_deleteChild_of_ne tree (fun below => Territory.ne_root below tree rfl) fun same => differ ?_
    simpa [Key.named] using same.symm
  case hangs =>
    refine fun id above key territory => ⟨place_of_deleteChild, fun place => ?_⟩
    rw [scope id (territory.of_place place)]
    exact place
  case buckets => exact fun id territory => congrArg Scope.values (scope id territory)
  case appended => exact fun id territory => congrArg Scope.appended (scope id territory)

end Spared

/-! ## Outside of a territory -/

/-- A scope that is neither the root nor in the territory of a name. -/
structure Outside (s : Store) (name : String) (id : ScopeId) : Prop where
  ne_root : id ≠ root
  foreign : ¬ s.Territory name id

namespace Outside

theorem spared (outside : s.Outside name id) (spared : Spared s s' name) : s'.Outside name id :=
  ⟨outside.ne_root, fun territory => outside.foreign (spared.territory.1 territory)⟩

/-- What hangs below a scope outside is outside. -/
theorem of_place (outside : s.Outside name above) (tree : s.Tree) (place : (s.scope id).place = some (above, key)) :
    s.Outside name id := by
  refine ⟨?_, fun territory => ?_⟩
  · rintro rfl
    rw [tree.root_unplaced] at place
    cases place
  · rcases territory.parent place with ⟨top, -⟩ | inside
    · exact outside.ne_root top
    · exact outside.foreign inside

/-- Below a scope outside nothing of the territory is opened. -/
theorem opens (outside : s.Outside name above) (tree : s.Tree) (here : above < s.scopes.length) (key : Key) :
    Spared s (s.openChild above key).2 name ∧ (s.openChild above key).2.Outside name (s.openChild above key).1 := by
  have spared : Spared s (s.openChild above key).2 name :=
    .opens tree here outside.foreign fun same => outside.ne_root (Prod.mk.inj same).1
  exact ⟨spared, (outside.spared spared).of_place (tree.openChild here key) (s.place_openChild above key)⟩

/-- The scope of another name is outside. -/
theorem opens_other (tree : s.Tree) (differ : other ≠ name) :
    Spared s (s.openChild root (.named other)).2 name ∧
      (s.openChild root (.named other)).2.Outside name (s.openChild root (.named other)).1 := by
  have names : Key.named other ≠ .named name := fun same => differ (by simpa [Key.named] using same)
  have spared : Spared s (s.openChild root (.named other)).2 name :=
    .opens tree tree.rooted (fun territory => territory.ne_root tree rfl) fun same => names (Prod.mk.inj same).2
  have tree' := tree.openChild tree.rooted (.named other)
  have place := s.place_openChild root (.named other)
  refine ⟨spared, fun top => ?_, fun territory => ?_⟩
  · rw [top, tree'.root_unplaced] at place
    cases place
  · rcases territory.parent place with ⟨-, same⟩ | inside
    · exact names same
    · exact inside.ne_root tree' rfl

end Outside

/-! ## Extending a tree -/

/-- Scopes were added, and the old ones hang where they did. -/
structure Extended (s s' : Store) : Prop where
  length : s.scopes.length ≤ s'.scopes.length
  place : ∀ id, id < s.scopes.length → (s'.scope id).place = (s.scope id).place

namespace Extended

theorem of_places (places : s'.places = s.places) : Extended s s' where
  length := (Kept.of_places places).length
  place id _ := by rw [place_eq, places, ← place_eq]

theorem trans (first : Extended s s') (later : Extended s' s'') : Extended s s'' where
  length := Nat.le_trans first.length later.length
  place id here := (later.place id (Nat.lt_of_lt_of_le here first.length)).trans (first.place id here)

variable (extended : Extended s s')

include extended

theorem kept : Kept s s' := ⟨extended.length, fun id here _ hangs => extended.place id here ▸ hangs⟩

theorem within (inside : s.Within top id) : s'.Within top id := by
  induction inside with
  | self => exact .self
  | @under id _ _ place _ ih =>
    have here : id < s.scopes.length := by
      by_contra beyond
      rw [s.scope_of_length_le (Nat.le_of_not_lt beyond)] at place
      cases place
    exact .under ((extended.place id here).trans place) ih

theorem child?_of_some (tree' : s'.Tree) (found : s.child? above key = some id) :
    s'.child? above key = some id := by
  obtain ⟨present, place⟩ := place_of_child? found
  rw [tree'.child?_eq_some, extended.place id present, place]

end Extended

theorem Widened.extended (widened : Widened s s') : Extended s s' :=
  ⟨widened.length, fun id here => congrArg Scope.place (widened.old id here)⟩

end Rollup.Store
