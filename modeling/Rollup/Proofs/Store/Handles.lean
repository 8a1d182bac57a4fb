import Rollup.Proofs.Store.Tree

/-!
# Handles on scopes

Whoever has opened a scope holds a handle on it and may go on using it, also when the scope has been
deleted in the meantime.  A deletion empties the child and everything within it and nothing else, and
the child that is opened next in its place has nothing to do with the scopes that the old handles
name (`deletion_contained`).

A deleted scope hangs nowhere, then and ever after, so what is opened below it later never comes to
hang within a scope of the tree (`Within.of_kept`).
-/

namespace Rollup.Store

variable {s s' : Store} {id top above : ScopeId} {name : Key}

/-! ## What hangs within a scope -/

/-- A scope is another one or hangs below it, at any depth. -/
inductive Within (s : Store) (top : ScopeId) : ScopeId → Prop
  | self : Within s top top
  | under {id above : ScopeId} {name : Key} (place : (s.scope id).place = some (above, name))
      (within : Within s top above) : Within s top id

namespace Within

theorem trans {mid : ScopeId} (first : s.Within top mid) (later : s.Within mid id) : s.Within top id := by
  induction later with
  | self => exact first
  | under place _ ih => exact .under place ih

theorem le (within : s.Within top id) (nested : s.Nested) : top ≤ id := by
  induction within with
  | self => exact Nat.le_refl top
  | under place _ ih => exact Nat.le_trans ih (Nat.le_of_lt (nested _ _ _ place))

/-- Nothing but itself has a scope within it that hangs nowhere. -/
theorem eq_of_unplaced (within : s.Within top id) (unplaced : (s.scope id).place = none) : id = top := by
  cases within with
  | self => rfl
  | under place _ => rw [unplaced] at place; cases place

/-- Of two scopes that a third one is within, one is within the other. -/
theorem linear {other : ScopeId} (within : s.Within top id) (within' : s.Within other id) :
    s.Within top other ∨ s.Within other top := by
  induction within with
  | self => exact .inr within'
  | under place within ih =>
    cases within' with
    | self => exact .inl (.under place within)
    | under place' within' =>
      -- There is one way up.
      obtain ⟨rfl, rfl⟩ := Prod.mk.inj (Option.some.inj (place.symm.trans place'))
      exact ih within'

theorem lt_length (within : s.Within top id) (here : top < s.scopes.length) : id < s.scopes.length := by
  cases within with
  | self => exact here
  | under place _ =>
    by_contra beyond
    rw [s.scope_of_length_le (Nat.le_of_not_lt beyond)] at place
    cases place

/-- An old scope is within another only if it was before. -/
theorem of_kept (within : s'.Within top id) (kept : s.Kept s') (nested : s.Nested) (here : id < s.scopes.length) :
    s.Within top id := by
  induction within with
  | self => exact .self
  | under place _ ih =>
    have before := kept.place _ here _ place
    exact .under before (ih (Nat.lt_trans (nested _ _ _ before) here))

end Within

/-! ## Depths -/

/-- A scope was made one deeper than the one that it hangs below. -/
def Leveled (s : Store) : Prop :=
  ∀ id above name, (s.scope id).place = some (above, name) → (s.scope id).depth = (s.scope above).depth + 1

theorem leveled_fresh : Leveled {} := by
  intro id above name place
  match id with
  | 0 => cases place
  | id + 1 =>
    rw [scope_of_length_le {} (Nat.succ_le_succ (Nat.zero_le id))] at place
    cases place

theorem within_of_hangsWithin {steps : Nat} (hangs : s.hangsWithin top steps id = true) : s.Within top id := by
  induction steps generalizing id with
  | zero =>
    rw [hangsWithin, decide_eq_true_eq] at hangs
    exact hangs ▸ .self
  | succ steps ih =>
    rw [hangsWithin, Bool.or_eq_true, decide_eq_true_eq] at hangs
    rcases hangs with rfl | higher
    · exact .self
    · split at higher
      · next above name place => exact .under place (ih higher)
      · cases higher

theorem Within.hangsWithin (within : s.Within top id) (leveled : s.Leveled) {steps : Nat}
    (enough : (s.scope id).depth ≤ steps) : s.hangsWithin top steps id = true := by
  induction within generalizing steps with
  | self => cases steps <;> simp [Store.hangsWithin]
  | @under id above name place _ ih =>
    rw [leveled id above name place] at enough
    cases steps with
    | zero => cases enough
    | succ steps =>
      rw [Store.hangsWithin, place, Bool.or_eq_true]
      exact .inr (ih (Nat.le_of_succ_le_succ enough))

/-- Looking as many scopes up as a scope is deep finds everything that it is within. -/
theorem isWithin_iff (leveled : s.Leveled) : s.isWithin top id = true ↔ s.Within top id :=
  ⟨within_of_hangsWithin, fun within => within.hangsWithin leveled (Nat.le_refl _)⟩

section Leveled

variable (leveled : s.Leveled)

include leveled

theorem Leveled.of_eq (place : ∀ id, (s'.scope id).place = (s.scope id).place)
    (depth : ∀ id, (s'.scope id).depth = (s.scope id).depth) : s'.Leveled := by
  intro id above name hangs
  rw [depth, depth]
  exact leveled id above name (place id ▸ hangs)

theorem Leveled.modify (id : ScopeId) {f : Scope → Scope} (place : ∀ x, (f x).place = x.place)
    (depth : ∀ x, (f x).depth = x.depth) : (s.modify id f).Leveled := by
  refine leveled.of_eq (fun other => ?_) fun other => ?_ <;>
  · by_cases same : other = id
    · subst same
      cases found : s.scopes[other]? <;> simp [scope, Store.modify, found, place, depth]
    · rw [s.scope_modify_of_ne same]

theorem Leveled.set (id : ScopeId) (key : Key) (doc : Option Document) : (s.set id key doc).Leveled := by
  cases doc <;> exact leveled.modify id (fun _ => rfl) fun _ => rfl

theorem Leveled.append {doc : Document} {marker : Int64} (made : s.append? id doc = some (marker, s')) :
    s'.Leveled := by
  rw [append?] at made
  split at made
  · cases made
    exact leveled.modify id (fun _ => rfl) fun _ => rfl
  · cases made

theorem Leveled.openChild (nested : s.Nested) (here : above < s.scopes.length) (name : Key) :
    (s.openChild above name).2.Leveled := by
  cases found : s.child? above name with
  | some child =>
    rw [Store.openChild, found]
    exact leveled
  | none =>
    rw [openChild_of_none found]
    intro id upper name' hangs
    rw [scope_append] at hangs
    split at hangs
    · next last =>
      cases hangs
      rw [scope_append, if_pos last, scope_append, if_neg (Nat.ne_of_lt here)]
    · next old =>
      -- What an old scope hangs below is old.
      have present : id < s.scopes.length := by
        by_contra beyond
        rw [s.scope_of_length_le (Nat.le_of_not_lt beyond)] at hangs
        cases hangs
      rw [scope_append, if_neg old, scope_append, if_neg (Nat.ne_of_lt (Nat.lt_trans (nested _ _ _ hangs) present))]
      exact leveled id upper name' hangs

theorem Leveled.deleteChild (above : ScopeId) (name : Key) : (s.deleteChild above name).Leveled := by
  intro id upper name' hangs
  have depth (other : ScopeId) : ((s.deleteChild above name).scope other).depth = (s.scope other).depth := by
    rw [Store.deleteChild]
    cases s.child? above name with
    | none => rfl
    | some child =>
      rw [scope_eraseTree]
      split <;> rfl
  rw [depth, depth]
  exact leveled id upper name' (place_of_deleteChild hangs)

end Leveled

/-! ## Reading -/

/-- A scope reads the same in two stores. -/
structure SameReads (s s' : Store) (id : ScopeId) : Prop where
  get? : ∀ key, s'.get? id key = s.get? id key
  entries : s'.entries id = s.entries id
  entriesUnder : ∀ front, s'.entriesUnder id front = s.entriesUnder id front
  appendedSince : ∀ marker, s'.appendedSince id marker = s.appendedSince id marker
  size : s'.size id = s.size id

/-- A scope reads as empty. -/
structure ReadsEmpty (s : Store) (id : ScopeId) : Prop where
  get? : ∀ key, s.get? id key = none
  entries : s.entries id = []
  entriesUnder : ∀ front, s.entriesUnder id front = []
  appendedSince : ∀ marker, s.appendedSince id marker = []
  size : s.size id = 0

/-- What a scope reads is told by its entries and by what was appended to it. -/
theorem SameReads.of_eq (buckets : s'.buckets id = s.buckets id)
    (appended : (s'.scope id).appended = (s.scope id).appended) : SameReads s s' id where
  get? key := by rw [get?_eq, get?_eq, buckets]
  entries := congrArg SortedMap.toList buckets
  entriesUnder front := by
    have entries : s'.entries id = s.entries id := congrArg SortedMap.toList buckets
    rw [Store.entriesUnder, Store.entriesUnder, entries]
  appendedSince marker := by simp only [Store.appendedSince, get?_eq, buckets, appended]
  size := congrArg SortedMap.size buckets

theorem SameReads.of_scope (scope : s'.scope id = s.scope id) : SameReads s s' id :=
  .of_eq (congrArg Scope.values scope) (congrArg Scope.appended scope)

theorem ReadsEmpty.of_eq (buckets : s.buckets id = .empty) (appended : (s.scope id).appended = []) :
    ReadsEmpty s id where
  get? key := by rw [get?_eq, buckets]; rfl
  entries := congrArg SortedMap.toList buckets
  entriesUnder front := by
    have entries : s.entries id = [] := congrArg SortedMap.toList buckets
    rw [Store.entriesUnder, entries]
    rfl
  appendedSince marker := by rw [Store.appendedSince, appended]; rfl
  size := congrArg SortedMap.size buckets

/-! ## Requests -/

/-- What is asked of a scope. -/
inductive Request
  | opens (name : Key)
  | sets (key : Key) (doc : Option Document)
  | appends (doc : Document)
  | deletes (name : Key)

/-- A store after a request to one of its scopes. -/
def after (s : Store) (id : ScopeId) : Request → Store
  | .opens name => (s.openChild id name).2
  | .sets key doc => s.set id key doc
  | .appends doc => ((s.append? id doc).map Prod.snd).getD s
  | .deletes name => s.deleteChild id name

/-- The scopes that a request hands out. -/
def handed (s : Store) (id : ScopeId) : Request → List ScopeId
  | .opens name => [(s.openChild id name).1]
  | .sets _ _ | .appends _ | .deletes _ => []

/-- A scope is the child of another under a name, or hangs below that child. -/
def Below (s : Store) (above : ScopeId) (name : Key) (id : ScopeId) : Prop :=
  ∃ child, s.child? above name = some child ∧ s.Within child id

theorem Tree.child?_eq_some (tree : s.Tree) :
    s.child? above name = some id ↔ (s.scope id).place = some (above, name) := by
  constructor
  · exact fun found => (place_of_child? found).2
  · intro place
    cases found : s.child? above name with
    | none => exact absurd place (child?_eq_none.1 found id)
    | some child => rw [tree.apart child id _ (place_of_child? found).2 place]

/-- An append changes a store or finds no marker left. -/
theorem after_appends (s : Store) (id : ScopeId) (doc : Document) :
    s.after id (.appends doc) = s ∨ ∃ marker, s.append? id doc = some (marker, s.after id (.appends doc)) := by
  rw [after]
  cases made : s.append? id doc with
  | none => exact .inl rfl
  | some pair => exact .inr ⟨pair.1, rfl⟩

/-- An append changes no other scope. -/
theorem scope_append?_of_ne {other : ScopeId} {doc : Document} {marker : Int64}
    (made : s.append? id doc = some (marker, s')) (apart : other ≠ id) : s'.scope other = s.scope other := by
  rw [append?] at made
  split at made
  · cases made
    exact s.scope_modify_of_ne apart _
  · cases made

theorem kept_after (s : Store) (id : ScopeId) (r : Request) : Kept s (s.after id r) := by
  cases r with
  | opens name => exact (s.widened_openChild id name).kept
  | sets key doc => exact .of_places (s.sameTree_set id key doc).places
  | appends doc =>
    rcases s.after_appends id doc with same | ⟨marker, made⟩
    · rw [same]
      exact .of_places rfl
    · exact .of_places (append?_kept made).1
  | deletes name => exact s.kept_deleteChild id name

theorem Tree.after (tree : s.Tree) (here : id < s.scopes.length) (r : Request) : (s.after id r).Tree := by
  cases r with
  | opens name => exact tree.openChild here name
  | sets key doc => exact tree.of_places (s.sameTree_set id key doc).places
  | appends doc =>
    rcases s.after_appends id doc with same | ⟨marker, made⟩
    · rwa [same]
    · exact tree.of_places (append?_kept made).1
  | deletes name => exact tree.deleteChild id name

theorem Leveled.after (leveled : s.Leveled) (nested : s.Nested) (here : id < s.scopes.length) (r : Request) :
    (s.after id r).Leveled := by
  cases r with
  | opens name => exact leveled.openChild nested here name
  | sets key doc => exact leveled.set id key doc
  | appends doc =>
    rcases s.after_appends id doc with same | ⟨marker, made⟩
    · rwa [same]
    · exact leveled.append made
  | deletes name => exact leveled.deleteChild id name

/-- What is not below a deleted name stays as it is. -/
theorem scope_deleteChild (outside : ¬ s.Below above name id) : (s.deleteChild above name).scope id = s.scope id := by
  rw [deleteChild]
  cases found : s.child? above name with
  | none => rfl
  | some child =>
    rw [scope_eraseTree, if_neg]
    exact fun within => outside ⟨child, found, within_of_hangsWithin within⟩

/-- What is below a deleted name is empty and hangs nowhere. -/
theorem scope_of_below (leveled : s.Leveled) (below : s.Below above name id) :
    (s.deleteChild above name).scope id = { depth := (s.scope id).depth } := by
  obtain ⟨child, found, within⟩ := below
  rw [deleteChild, found]
  exact (scope_eraseTree s child id).trans (if_pos ((isWithin_iff leveled).2 within))

/-- A request changes what is read within the scope that it goes to, and nowhere else. -/
theorem sameReads_after {other : ScopeId} (outside : ¬ s.Within id other) (r : Request) :
    SameReads s (s.after id r) other := by
  have apart : other ≠ id := fun same => outside (same ▸ .self)
  cases r with
  | opens name =>
    have widened := s.widened_openChild id name
    exact .of_eq (widened.buckets_eq other) (widened.appended_eq other)
  | sets key doc => exact .of_scope (s.scope_set_of_ne apart key doc)
  | appends doc =>
    rcases s.after_appends id doc with same | ⟨marker, made⟩
    · rw [same]
      exact .of_scope rfl
    · exact .of_scope (scope_append?_of_ne made apart)
  | deletes name =>
    refine .of_scope (scope_deleteChild ?_)
    rintro ⟨child, found, within⟩
    exact outside (.trans (.under (place_of_child? found).2 .self) within)

/-- A name stays free until it is opened. -/
theorem child?_after_of_none {target : ScopeId} (free : s.child? above name = none) (r : Request)
    (unopened : ¬ (target = above ∧ r = .opens name)) : (s.after target r).child? above name = none := by
  rw [child?_eq_none] at free ⊢
  intro id hangs
  rcases Nat.lt_or_ge id s.scopes.length with here | beyond
  · exact free id ((s.kept_after target r).place id here _ hangs)
  · cases r with
    | opens name' =>
      cases found : s.child? target name' with
      | some child =>
        rw [after, openChild, found] at hangs
        exact free id hangs
      | none =>
        rw [after, openChild_of_none found, scope_append] at hangs
        split at hangs
        · cases hangs
          exact unopened ⟨rfl, rfl⟩
        · exact free id hangs
    | sets key doc =>
      rw [after, scope_of_length_le _ (Nat.le_trans (Nat.le_of_eq (s.length_set target key doc)) beyond)] at hangs
      cases hangs
    | appends doc =>
      rcases s.after_appends target doc with same | ⟨marker, made⟩
      · rw [same] at hangs
        exact free id hangs
      · rw [place_eq, (append?_kept made).1, ← place_eq] at hangs
        exact free id hangs
    | deletes name' =>
      exact free id (place_of_deleteChild hangs)

/-- A child stays where it is until it is deleted. -/
theorem child?_after_of_some {target child : ScopeId} (tree : s.Tree) (here : target < s.scopes.length)
    (found : s.child? above name = some child) (r : Request)
    (spared : ∀ name', r = .deletes name' → ¬ s.Below target name' child) :
    (s.after target r).child? above name = some child := by
  obtain ⟨present, place⟩ := place_of_child? found
  rw [(tree.after here r).child?_eq_some]
  cases r with
  | opens name' =>
    rw [after, (s.widened_openChild target name').old child present]
    exact place
  | sets key doc =>
    rw [after, place_eq, (s.sameTree_set target key doc).places, ← place_eq]
    exact place
  | appends doc =>
    rcases s.after_appends target doc with same | ⟨marker, made⟩
    · rw [same]
      exact place
    · rw [place_eq, (append?_kept made).1, ← place_eq]
      exact place
  | deletes name' =>
    rw [after, scope_deleteChild (spared name' rfl)]
    exact place

/-! ## Handles -/

/-- A store with the handles on its scopes, in the order in which they were obtained.  Who starts holds the
root of an empty store. -/
structure Holder where
  store : Store := {}
  handles : List ScopeId := [root]

namespace Holder

/-- A request through one of the handles, counted from zero.  What it hands out is held from then on. -/
def act (h : Holder) (use : Nat × Request) : Holder :=
  match h.handles[use.1]? with
  | some id => { store := h.store.after id use.2, handles := h.handles ++ h.store.handed id use.2 }
  | none => h

/-- Requests one after another. -/
def acts (h : Holder) (uses : List (Nat × Request)) : Holder := uses.foldl act h

/-- Every request of a run is one that may be made where it is made. -/
def Each (may : Holder → Nat × Request → Prop) : Holder → List (Nat × Request) → Prop
  | _, [] => True
  | h, use :: uses => may h use ∧ Each may (h.act use) uses

/-- A request opens the child of a scope under a name. -/
def Opens (h : Holder) (above : ScopeId) (name : Key) (use : Nat × Request) : Prop :=
  h.handles[use.1]? = some above ∧ use.2 = .opens name

/-- A request deletes a scope, itself or with one that it hangs below. -/
def Deletes (h : Holder) (id : ScopeId) (use : Nat × Request) : Prop :=
  ∃ above name, h.handles[use.1]? = some above ∧ use.2 = .deletes name ∧ h.store.Below above name id

/-- The store is a tree with true depths, and every handle is on a scope of it. -/
structure Sound (h : Holder) : Prop where
  tree : h.store.Tree
  leveled : h.store.Leveled
  held : ∀ id ∈ h.handles, id < h.store.scopes.length

theorem sound_fresh : Sound {} where
  tree := tree_fresh
  leveled := leveled_fresh
  held id mem := by
    rw [List.mem_singleton.1 mem]
    exact Nat.zero_lt_one

variable {h : Holder}

theorem act_of_some {use : Nat × Request} (held : h.handles[use.1]? = some id) :
    h.act use = { store := h.store.after id use.2, handles := h.handles ++ h.store.handed id use.2 } := by
  rw [act, held]

theorem kept_act (h : Holder) (use : Nat × Request) : Kept h.store (h.act use).store := by
  cases held : h.handles[use.1]? with
  | none =>
    rw [act, held]
    exact .of_places rfl
  | some id =>
    rw [act_of_some held]
    exact h.store.kept_after id use.2

theorem kept_acts (h : Holder) (uses : List (Nat × Request)) : Kept h.store (h.acts uses).store := by
  induction uses generalizing h with
  | nil => exact .of_places rfl
  | cons use uses ih => exact (h.kept_act use).trans (ih (h.act use))

theorem Sound.act (sound : h.Sound) (use : Nat × Request) : (h.act use).Sound := by
  cases held : h.handles[use.1]? with
  | none =>
    rw [Holder.act, held]
    exact sound
  | some id =>
    have here := sound.held id (List.mem_of_getElem? held)
    have kept := h.store.kept_after id use.2
    rw [act_of_some held]
    refine ⟨sound.tree.after here use.2, sound.leveled.after sound.tree.nested here use.2, fun other mem => ?_⟩
    rcases List.mem_append.1 mem with old | new
    · exact Nat.lt_of_lt_of_le (sound.held other old) kept.length
    · cases request : use.2 with
      | opens name =>
        rw [request] at new
        rw [List.mem_singleton.1 new]
        exact h.store.openChild_lt id name
      | sets _ _ | appends _ | deletes _ =>
        rw [request] at new
        cases new

theorem Sound.acts (sound : h.Sound) (uses : List (Nat × Request)) : (h.acts uses).Sound := by
  induction uses generalizing h with
  | nil => exact sound
  | cons use uses ih => exact ih (sound.act use)

theorem child?_acts_of_none (free : h.store.child? above name = none) {uses : List (Nat × Request)}
    (unopened : Each (fun h use => ¬ h.Opens above name use) h uses) :
    (h.acts uses).store.child? above name = none := by
  induction uses generalizing h with
  | nil => exact free
  | cons use uses ih =>
    obtain ⟨first, rest⟩ := unopened
    refine ih ?_ rest
    cases held : h.handles[use.1]? with
    | none => rwa [Holder.act, held]
    | some id =>
      rw [act_of_some held]
      refine child?_after_of_none free use.2 ?_
      rintro ⟨rfl, opens⟩
      exact first ⟨held, opens⟩

theorem child?_acts_of_some {child : ScopeId} (sound : h.Sound) (found : h.store.child? above name = some child)
    {uses : List (Nat × Request)} (spared : Each (fun h use => ¬ h.Deletes child use) h uses) :
    (h.acts uses).store.child? above name = some child := by
  induction uses generalizing h with
  | nil => exact found
  | cons use uses ih =>
    obtain ⟨first, rest⟩ := spared
    refine ih (sound.act use) ?_ rest
    cases held : h.handles[use.1]? with
    | none => rwa [Holder.act, held]
    | some id =>
      rw [act_of_some held]
      exact child?_after_of_some sound.tree (sound.held id (List.mem_of_getElem? held)) found use.2
        fun name' deletes below => first ⟨id, name', held, deletes, below⟩

end Holder

/-! ## Deletion -/

/-- Two scopes share no data: no scope is within both, and a request to a scope within the one changes
nothing that is read within the other. -/
structure Apart (s : Store) (top other : ScopeId) : Prop where
  disjoint : ∀ id, s.Within top id → ¬ s.Within other id
  unseen : ∀ id, s.Within top id → ∀ r x, s.Within other x → SameReads s (s.after id r) x
  unseen' : ∀ id, s.Within other id → ∀ r x, s.Within top x → SameReads s (s.after id r) x

theorem Apart.of_outside {other : ScopeId} (outside : ¬ s.Within top other) (outside' : ¬ s.Within other top) :
    s.Apart top other := by
  have disjoint : ∀ id, s.Within top id → ¬ s.Within other id := fun id within within' =>
    (within.linear within').elim outside outside'
  refine ⟨disjoint, fun id within r x within' => sameReads_after ?_ r,
    fun id within r x within' => sameReads_after ?_ r⟩
  · exact fun further => disjoint x (within.trans further) within'
  · exact fun further => disjoint x within' (within.trans further)

theorem readsEmpty_of_below (leveled : s.Leveled) (below : s.Below above name id) :
    ReadsEmpty (s.deleteChild above name) id ∧ ((s.deleteChild above name).scope id).place = none := by
  have scope := scope_of_below leveled below
  exact ⟨.of_eq (congrArg Scope.values scope) (congrArg Scope.appended scope), congrArg Scope.place scope⟩

/-- A deletion leaves the other scopes their children. -/
theorem child?_deleteChild_of_ne (tree : s.Tree) {other : ScopeId} {name' : Key} (outside : ¬ s.Below above name other)
    (apart : (other, name') ≠ (above, name)) :
    (s.deleteChild above name).child? other name' = s.child? other name' := by
  ext child
  rw [(tree.deleteChild above name).child?_eq_some, tree.child?_eq_some]
  refine ⟨place_of_deleteChild, fun place => ?_⟩
  rw [scope_deleteChild]
  · exact place
  · rintro ⟨deleted, found, within⟩
    cases within with
    | self => exact apart (Option.some.inj (place.symm.trans (place_of_child? found).2))
    | under place' within =>
      obtain ⟨rfl, rfl⟩ := Prod.mk.inj (Option.some.inj (place.symm.trans place'))
      exact outside ⟨deleted, found, within⟩

/-- What is opened anew where a scope was deleted shares no data with what was deleted. -/
theorem apart_of_opened {v w : Store} {child : ScopeId} (tree : s.Tree) (below : s.Below above name id)
    (kept : Kept (s.deleteChild above name) v) (kept' : Kept v w) (nested : v.Nested) (nested' : w.Nested)
    (new : s.scopes.length ≤ child) (opened : (v.scope child).place = some (above, name)) : w.Apart id child := by
  obtain ⟨deleted, found, within⟩ := below
  obtain ⟨present, place⟩ := place_of_child? found
  have old : id < s.scopes.length := within.lt_length present
  have upper : above < deleted := tree.nested _ _ _ place
  refine .of_outside (fun inside => ?_) fun inside => ?_
  · have here : child < v.scopes.length := by
      by_contra beyond
      rw [v.scope_of_length_le (Nat.le_of_not_lt beyond)] at opened
      cases opened
    have kept'' := (s.kept_deleteChild above name).trans kept
    cases inside.of_kept kept' nested here with
    | self => exact Nat.lt_irrefl id (Nat.lt_of_lt_of_le old new)
    | under hangs higher =>
      -- The scope above the new one would have to be within what was deleted, but it stood over that.
      obtain ⟨rfl, rfl⟩ := Prod.mk.inj (Option.some.inj (opened.symm.trans hangs))
      have before := higher.of_kept kept'' tree.nested (Nat.lt_trans upper present)
      exact Nat.lt_irrefl _ (Nat.lt_of_lt_of_le upper ((within.trans before).le tree.nested))
  · exact Nat.lt_irrefl id (Nat.lt_of_lt_of_le old (Nat.le_trans new (inside.le nested')))

namespace Holder

variable {t : Holder} (sound : t.Sound) {i : Nat} (held : t.handles[i]? = some id)

include held in
/-- Where nothing hangs, a scope is opened that nobody held and that is empty. -/
theorem act_opens_of_none (free : t.store.child? id name = none) :
    let v := t.act (i, .opens name)
    v.handles = t.handles ++ [t.store.scopes.length] ∧ Widened t.store v.store ∧
      (v.store.scope t.store.scopes.length).place = some (id, name) := by
  intro v
  have handed : (t.store.openChild id name).1 = t.store.scopes.length := by rw [openChild_of_none free]
  have opened : v = { store := (t.store.openChild id name).2, handles := t.handles ++ [t.store.scopes.length] } := by
    rw [← handed]
    exact act_of_some held
  rw [opened]
  refine ⟨rfl, t.store.widened_openChild id name, ?_⟩
  rw [← handed]
  exact t.store.place_openChild id name

include sound held

/-- What is opened next under a deleted name is new, is empty, and never comes to share data with what was
deleted. -/
theorem Sound.opens_anew (meanwhile : List (Nat × Request))
    (unopened : Each (fun h use => ¬ h.Opens id name use) (t.act (i, .deletes name)) meanwhile) :
    let u := (t.act (i, .deletes name)).acts meanwhile
    ∀ j, u.handles[j]? = some id →
      let v := u.act (j, .opens name)
      ∃ child, v.handles = u.handles ++ [child] ∧ child ∉ u.handles ∧ ReadsEmpty v.store child ∧
        ∀ later x, t.store.Below id name x → (v.acts later).store.Apart x child := by
  intro u j held' v
  have deleted : (t.act (i, .deletes name)).store = t.store.deleteChild id name := by
    rw [act_of_some held]
    rfl
  have soundu : u.Sound := (sound.act _).acts meanwhile
  have soundv : v.Sound := soundu.act _
  have free : u.store.child? id name = none :=
    child?_acts_of_none (by rw [deleted]; exact sound.tree.child?_deleteChild id name) unopened
  have kept : Kept (t.store.deleteChild id name) u.store := deleted ▸ kept_acts _ meanwhile
  have length : t.store.scopes.length ≤ u.store.scopes.length := by
    rw [← t.store.length_deleteChild id name]
    exact kept.length
  obtain ⟨handles, widened, place⟩ := act_opens_of_none held' free
  have beyond := Nat.le_refl u.store.scopes.length
  refine ⟨u.store.scopes.length, handles, fun mem => Nat.lt_irrefl _ (soundu.held _ mem),
    .of_eq (widened.values _ beyond) (widened.appended _ beyond), fun later x below => ?_⟩
  exact apart_of_opened sound.tree below (kept.trans widened.kept) (v.kept_acts later) soundv.tree.nested
    (soundv.acts later).tree.nested length place

/-- A name opens the same child again as long as that child has not been deleted. -/
theorem Sound.opens_again (between : List (Nat × Request)) :
    ∃ child, (t.act (i, .opens name)).handles = t.handles ++ [child] ∧
      (Each (fun h use => ¬ h.Deletes child use) (t.act (i, .opens name)) between →
        let u := (t.act (i, .opens name)).acts between
        ∀ j, u.handles[j]? = some id →
          (u.act (j, .opens name)).handles = u.handles ++ [child] ∧ (u.act (j, .opens name)).store = u.store) := by
  have opened : t.act (i, .opens name) = _ := act_of_some held
  refine ⟨(t.store.openChild id name).1, congrArg Holder.handles opened, ?_⟩
  intro spared u j held'
  have found : (t.act (i, .opens name)).store.child? id name = some (t.store.openChild id name).1 := by
    rw [(sound.act (i, .opens name)).tree.child?_eq_some, opened]
    exact t.store.place_openChild id name
  have again : u.store.child? id name = some (t.store.openChild id name).1 :=
    child?_acts_of_some (sound.act (i, .opens name)) found spared
  have same : u.store.openChild id name = ((t.store.openChild id name).1, u.store) := by rw [openChild, again]
  rw [show u.act (j, .opens name) = _ from act_of_some held']
  exact ⟨congrArg (u.handles ++ [·.1]) same, congrArg Prod.snd same⟩

end Holder

open Holder in
/-- Scope deletion is complete and contained.  Whatever was asked through whichever handles of a store, when
the child of a scope under a name is deleted then

* the child and every scope below it read as empty, and hang nowhere;
* every other scope reads as before, and has the children that it had;
* the child that is opened next under the name is one that nobody held, is empty, and never comes to share
  data with the scopes that were deleted.

And a name opens the same child again as long as that child has not been deleted. -/
theorem deletion_contained (past : List (Nat × Request)) {i : Nat} {id : ScopeId}
    (held : (({} : Holder).acts past).handles[i]? = some id) (name : Key) :
    let t := ({} : Holder).acts past
    let t' := t.act (i, .deletes name)
    (∀ x, t.store.Below id name x → ReadsEmpty t'.store x ∧ (t'.store.scope x).place = none) ∧
    (∀ x, ¬ t.store.Below id name x → SameReads t.store t'.store x ∧
      ∀ name', (x, name') ≠ (id, name) → t'.store.child? x name' = t.store.child? x name') ∧
    (∀ meanwhile, Each (fun h use => ¬ h.Opens id name use) t' meanwhile →
      let u := t'.acts meanwhile
      ∀ j, u.handles[j]? = some id →
        let v := u.act (j, .opens name)
        ∃ child, v.handles = u.handles ++ [child] ∧ child ∉ u.handles ∧ ReadsEmpty v.store child ∧
          ∀ later x, t.store.Below id name x → (v.acts later).store.Apart x child) ∧
    ∀ between, ∃ child, (t.act (i, .opens name)).handles = t.handles ++ [child] ∧
      (Each (fun h use => ¬ h.Deletes child use) (t.act (i, .opens name)) between →
        let u := (t.act (i, .opens name)).acts between
        ∀ j, u.handles[j]? = some id →
          (u.act (j, .opens name)).handles = u.handles ++ [child] ∧ (u.act (j, .opens name)).store = u.store) := by
  intro t t'
  have sound : t.Sound := sound_fresh.acts past
  have deleted : t'.store = t.store.deleteChild id name := congrArg Holder.store (act_of_some held)
  rw [deleted]
  refine ⟨fun x below => readsEmpty_of_below sound.leveled below, fun x outside => ⟨?_, fun name' apart => ?_⟩,
    sound.opens_anew held, sound.opens_again held⟩
  · exact .of_scope (scope_deleteChild outside)
  · exact child?_deleteChild_of_ne sound.tree outside apart

open Holder in
/-- A scope is deleted with one nested below it, and the handle on that one is used on. -/
theorem deletion_contained_nested :
    let a := Key.named "a"
    let doc : Document := ⟨[("x", .bool true)]⟩
    let past : List (Nat × Request) := [(0, .opens a), (1, .opens a), (2, .sets a (some doc)), (0, .sets a (some doc))]
    let t := ({} : Holder).acts past
    let t' := t.act (0, .deletes a)
    let v := (t'.act (2, .appends doc)).act (0, .opens a)
    t.handles = [0, 1, 2] ∧ t.store.size 2 = 1 ∧ ReadsEmpty t'.store 2 ∧
      t.store.size 0 = 1 ∧ SameReads t.store t'.store 0 ∧
      v.handles = [0, 1, 2, 3] ∧ v.store.size 2 = 1 ∧ ReadsEmpty v.store 3 ∧
      (v.acts [(3, .opens a), (2, .opens a)]).store.Apart 2 3 ∧
      (((t.act (0, .opens a)).act (2, .opens a)).act (0, .opens a)).handles = [0, 1, 2, 1, 3] ++ [1] := by
  intro a doc past t t' v
  have held : t.handles = [0, 1, 2] := by decide +kernel
  have below : t.store.Below 0 a 2 :=
    ⟨1, by decide +kernel, .under (show (t.store.scope 2).place = some (1, a) by decide +kernel) .self⟩
  have outside : ¬ t.store.Below 0 a 0 := by
    rintro ⟨child, found, within⟩
    obtain rfl := within.eq_of_unplaced (by decide +kernel)
    cases show some 1 = some 0 from .trans (by decide +kernel) found
  have meanwhile : Each (fun h use => ¬ h.Opens 0 a use) t' [(2, .appends doc)] := by
    refine ⟨?_, trivial⟩
    rintro ⟨-, opens⟩
    cases opens
  have between : Each (fun h use => ¬ h.Deletes 1 use) (t.act (0, .opens a)) [(2, .opens a)] := by
    refine ⟨?_, trivial⟩
    rintro ⟨id, name, -, deletes, -⟩
    cases deletes
  have root : t.handles[0]? = some 0 := by rw [held]; rfl
  obtain ⟨empty, same, anew, again⟩ := deletion_contained past root a
  obtain ⟨child, handles, -, fresh, apart⟩ := anew _ meanwhile 0 (by decide +kernel)
  have opened : [0, 1, 2, 3] = [0, 1, 2] ++ [child] :=
    .trans (by decide +kernel) (handles.trans (congrArg (· ++ [child]) (by decide +kernel)))
  obtain rfl : 3 = child := by simpa using opened
  obtain ⟨child', handles', reopens⟩ := again [(2, .opens a)]
  have opened' : [0, 1, 2, 1] = [0, 1, 2] ++ [child'] :=
    .trans (by decide +kernel) (handles'.trans (congrArg (· ++ [child']) (by decide +kernel)))
  obtain rfl : 1 = child' := by simpa using opened'
  have reopened := (reopens between 0 (by decide +kernel)).1
  exact ⟨held, by decide +kernel, (empty 2 below).1, by decide +kernel, (same 0 outside).1, by decide +kernel,
    by decide +kernel, fresh, apart _ 2 below, reopened.trans (by decide +kernel)⟩

end Rollup.Store
