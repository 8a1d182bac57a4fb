import Rollup.Draft

/-!
# What calls leave of a draft

The verbs of a stage change the key of a draft one call after another.  What they leave can be told from the calls
alone: a region holds what was added to it since it last began anew (`index_run`, `normal_run`), and a normal part stays
in its slot until the slot is cleared or the key replaced (`getElem?_normal_run`).
-/

namespace Rollup

namespace Key

/-- How many index parts a marked key tells: its last part is their number, and the others are at least as many. -/
def told? (key : Key) : Option Nat :=
  (key.parts.getLast?.bind Draft.marker?).filter (· ≤ key.parts.dropLast.length)

/-- The index parts and the normal parts of a key.  A malformed marker delimits no index parts. -/
def regions (key : Key) (marked : Bool) : List KeyPart × List KeyPart :=
  if marked then key.parts.dropLast.splitAt (key.told?.getD 0) else ([], key.parts)

end Key

namespace Draft

/-- A change of the key of a draft, or its rejection. -/
inductive Call where
  | addKey (part : KeyPart)
  | addIndexKey (part : KeyPart)
  | clearSlot (slot : Nat)
  | dropIndex
  | setKey (key : Key) (marked : Bool)
  | reject
deriving DecidableEq

/-- What a call makes of a draft. -/
def apply (d : Draft) : Call → Draft
  | .addKey part => d.addKey part
  | .addIndexKey part => d.addIndexKey part
  | .clearSlot slot => d.clearSlot slot
  | .dropIndex => d.dropIndex
  | .setKey key marked => d.setKey key marked
  | .reject => d.reject

/-- What calls make of a fresh draft, the first of them first. -/
def run (calls : List Call) : Draft := calls.foldl apply {}

theorem run_append (before after : List Call) : run (before ++ after) = after.foldl apply (run before) :=
  List.foldl_append

namespace Call

/-- The part that a call adds to the index region. -/
def indexPart? : Call → Option KeyPart
  | addIndexKey part => some part
  | _ => none

/-- What the index region begins with after a call that drops it or replaces the key. -/
def indexStart? : Call → Option (List KeyPart)
  | dropIndex => some []
  | setKey key marked => some (key.regions marked).1
  | _ => none

/-- What the normal region begins with after a call that replaces the key. -/
def normalStart? : Call → Option (List KeyPart)
  | setKey key marked => some (key.regions marked).2
  | _ => none

/-- The calls that reject a draft. -/
def rejects : Call → Bool
  | reject => true
  | setKey key marked => marked && key.told?.isNone
  | _ => false

end Call

/-! ## Histories -/

/-- `after` are the calls behind the last one with which a region begins anew, and `start` is what it begins with.  The
region of a fresh draft begins empty. -/
inductive Since (start? : Call → Option (List KeyPart)) : List Call → List KeyPart → List Call → Prop
  | fresh {after : List Call} (kept : ∀ c ∈ after, start? c = none) : Since start? after [] after
  | anew {before : List Call} {c : Call} {start : List KeyPart} {after : List Call} (begins : start? c = some start)
      (kept : ∀ c ∈ after, start? c = none) : Since start? (before ++ c :: after) start after

theorem exists_since (start? : Call → Option (List KeyPart)) (calls : List Call) :
    ∃ start after, Since start? calls start after := by
  induction calls with
  | nil => exact ⟨[], [], .fresh (by simp)⟩
  | cons c rest ih =>
    obtain ⟨start, after, since⟩ := ih
    cases since with
    | anew begins kept => exact ⟨start, after, @Since.anew _ (c :: _) _ _ _ begins kept⟩
    | fresh kept =>
      cases begins : start? c with
      | none => exact ⟨[], c :: rest, .fresh (List.forall_mem_cons.2 ⟨begins, kept⟩)⟩
      | some start => exact ⟨start, rest, @Since.anew _ [] _ _ _ begins kept⟩

/-- What calls leave of the part in a slot. -/
def left (calls : List Call) (slot : Nat) (part : KeyPart) : KeyPart :=
  if .clearSlot slot ∈ calls then .null else part

/-- What calls leave of the normal parts that they add behind the first `slot` ones. -/
def added (slot : Nat) : List Call → List KeyPart
  | [] => []
  | .addKey part :: rest => left rest slot part :: added (slot + 1) rest
  | _ :: rest => added slot rest

theorem left_nil (slot : Nat) : left [] slot = id := by
  funext part
  simp [left]

theorem left_of_ne {c : Call} {slot : Nat} (other : c ≠ .clearSlot slot) (rest : List Call) :
    left (c :: rest) slot = left rest slot := by
  funext part
  simp [left, other.symm]

/-! ## One call -/

theorem setKey_eq (d : Draft) (key : Key) (marked : Bool) :
    d.setKey key marked = { d with
      index := (key.regions marked).1, normal := (key.regions marked).2,
      rejected := d.rejected || (marked && key.told?.isNone) } := by
  cases marked with
  | false => simp [setKey, Key.regions]
  | true =>
    cases marker : key.parts.getLast?.bind marker? with
    | none => simp [setKey, Key.regions, Key.told?, marker]
    | some n =>
      rw [setKey, if_pos rfl, marker]
      by_cases within : n ≤ key.parts.dropLast.length
      · have told : key.told? = some n := by simpa [Key.told?, marker, Option.filter] using within
        simp only [if_pos within]
        simp [Key.regions, told]
      · have told : key.told? = none := by simpa [Key.told?, marker, Option.filter] using within
        simp only [if_neg within]
        simp [Key.regions, told]

theorem index_apply_of_start {d : Draft} {c : Call} {start : List KeyPart} (begins : c.indexStart? = some start) :
    (d.apply c).index = start := by
  cases c with
  | dropIndex => exact Option.some.inj begins
  | setKey key marked =>
    rw [apply, setKey_eq]
    exact Option.some.inj begins
  | addKey _ | addIndexKey _ | clearSlot _ | reject => cases begins

theorem index_apply_of_none {d : Draft} {c : Call} (kept : c.indexStart? = none) :
    (d.apply c).index = d.index ++ c.indexPart?.toList := by
  cases c with
  | addIndexKey part => rfl
  | addKey _ | clearSlot _ | reject => exact (List.append_nil _).symm
  | dropIndex | setKey _ _ => cases kept

theorem rejected_apply (d : Draft) (c : Call) : (d.apply c).rejected = (d.rejected || c.rejects) := by
  cases c with
  | setKey key marked => rw [apply, setKey_eq, Call.rejects]
  | reject => exact (Bool.or_true _).symm
  | addKey _ | addIndexKey _ | clearSlot _ | dropIndex => exact (Bool.or_false _).symm

theorem normal_apply_of_start {d : Draft} {c : Call} {start : List KeyPart} (begins : c.normalStart? = some start) :
    (d.apply c).normal = start := by
  cases c with
  | setKey key marked =>
    rw [apply, setKey_eq]
    exact Option.some.inj begins
  | addKey _ | addIndexKey _ | clearSlot _ | dropIndex | reject => cases begins

/-! ## Many calls -/

theorem rejected_foldl (d : Draft) (calls : List Call) :
    (calls.foldl apply d).rejected = (d.rejected || calls.any Call.rejects) := by
  induction calls generalizing d with
  | nil => simp
  | cons c rest ih => rw [List.foldl_cons, ih, rejected_apply, List.any_cons, Bool.or_assoc]

theorem index_foldl (d : Draft) {calls : List Call} (kept : ∀ c ∈ calls, c.indexStart? = none) :
    (calls.foldl apply d).index = d.index ++ calls.filterMap Call.indexPart? := by
  induction calls generalizing d with
  | nil => simp
  | cons c rest ih =>
    obtain ⟨here, later⟩ := List.forall_mem_cons.1 kept
    rw [List.foldl_cons, ih _ later, index_apply_of_none here, List.append_assoc]
    cases add : c.indexPart? with
    | none => rw [List.filterMap_cons_none add]; rfl
    | some part => rw [List.filterMap_cons_some add]; rfl

/-- Clearing a slot now is clearing it among the calls to come. -/
theorem mapIdx_left_set (parts : List KeyPart) (slot : Nat) (rest : List Call) :
    (parts.set slot .null).mapIdx (left rest) = parts.mapIdx (left (.clearSlot slot :: rest)) := by
  apply List.ext_getElem?
  intro i
  rw [List.getElem?_mapIdx, List.getElem?_mapIdx, List.getElem?_set]
  by_cases own : slot = i
  · subst own
    rw [if_pos rfl]
    split
    · next inside => simp [inside, left]
    · next outside => simp [List.getElem?_eq_none (Nat.le_of_not_lt outside)]
  · rw [if_neg own, left_of_ne (by simpa using own)]

/-- The normal parts that were there stay in front of those that the calls add. -/
theorem normal_foldl (d : Draft) {calls : List Call} (kept : ∀ c ∈ calls, c.normalStart? = none) :
    (calls.foldl apply d).normal = d.normal.mapIdx (left calls) ++ added d.normal.length calls := by
  induction calls generalizing d with
  | nil =>
    have whole : d.normal.mapIdx (left []) = d.normal := List.ext_getElem? fun i => by simp [left_nil]
    simp [added, whole]
  | cons c rest ih =>
    -- A part that this call adds is one of those that were there for the calls behind it.
    obtain ⟨here, later⟩ := List.forall_mem_cons.1 kept
    have others (other : ∀ slot, c ≠ .clearSlot slot) : left (c :: rest) = left rest :=
      funext fun slot => left_of_ne (other slot) rest
    rw [List.foldl_cons, ih _ later]
    cases c with
    | setKey key marked => cases here
    | clearSlot slot => rw [apply, Draft.clearSlot, mapIdx_left_set, List.length_set]; rfl
    | addKey part => simp [apply, Draft.addKey, others, added, List.mapIdx_append]
    | addIndexKey _ | dropIndex | reject => rw [others (by simp)]; rfl

/-! ## Runs -/

theorem rejected_run (calls : List Call) : (run calls).rejected = calls.any Call.rejects :=
  rejected_foldl {} calls

/-- The index parts are those added since the region was dropped or the key replaced. -/
theorem index_run {calls : List Call} {start : List KeyPart} {after : List Call}
    (since : Since Call.indexStart? calls start after) :
    (run calls).index = start ++ after.filterMap Call.indexPart? := by
  cases since with
  | fresh kept => exact index_foldl {} kept
  | anew begins kept => rw [run_append, List.foldl_cons, index_foldl _ kept, index_apply_of_start begins]

/-- The normal parts are those of the key that was set last and those added since. -/
theorem normal_run {calls : List Call} {start : List KeyPart} {after : List Call}
    (since : Since Call.normalStart? calls start after) :
    (run calls).normal = start.mapIdx (left after) ++ added start.length after := by
  cases since with
  | fresh kept => exact normal_foldl {} kept
  | anew begins kept => rw [run_append, List.foldl_cons, normal_foldl _ kept, normal_apply_of_start begins]

/-- A part stays in the slot in which it was added. -/
theorem getElem?_normal_run {before : List Call} {part : KeyPart} {after : List Call}
    (kept : ∀ c ∈ after, c.normalStart? = none) :
    (run (before ++ .addKey part :: after)).normal[(run before).nextSlot]? =
      some (left after (run before).nextSlot part) := by
  rw [run_append, List.foldl_cons, normal_foldl _ kept]
  simp [apply, Draft.addKey, nextSlot]

end Draft

end Rollup
