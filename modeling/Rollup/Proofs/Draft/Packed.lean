import Rollup.Proofs.Draft.Calls
import Rollup.Proofs.Stage.Routing

/-!
# Drafts in one list

Both regions of a draft fit into one list of parts, with a cursor where the normal region begins.  On that layout the
calls subtract from the cursor, insert and drain at it and address slots from it, each of which could fail; none of them
does (`step?_pack`), and they do to the list what they do to the regions (`keeps_two_regions`).  A key that was written
into a document splits again where its marker tells (`exists_restored`).
-/

namespace Rollup

theorem insertIdx_length {α : Type} (front back : List α) (a : α) :
    (front ++ back).insertIdx front.length a = front ++ a :: back := by
  induction front with
  | nil => rfl
  | cons b front ih => simp [ih]

namespace Draft

/-- A draft whose key is one list.  The index region ends at the cursor. -/
structure Packed where
  rejected : Bool := false
  parts : List KeyPart := []
  cursor : Nat := 0
  doc : Document := .empty

namespace Packed

/-- The slot of the next normal part, unless the cursor is beyond the list. -/
def slot? (p : Packed) : Option Nat :=
  if p.cursor ≤ p.parts.length then some (p.parts.length - p.cursor) else none

/-- Replaces the key, and moves the cursor to where the marker tells. -/
def setKey (p : Packed) (key : Key) (marked : Bool) : Packed :=
  if marked then
    let parts := key.parts.dropLast
    match key.parts.getLast?.bind marker? with
    | some n =>
      if n ≤ parts.length then { p with parts, cursor := n } else { p with parts, cursor := 0, rejected := true }
    | none => { p with parts, cursor := 0, rejected := true }
  else { p with parts := key.parts, cursor := 0 }

/-- What a call makes of the list.  There is no result where a subtraction is below zero, a sum is beyond 64 bits, or
the cursor beyond the list. -/
def step? (p : Packed) : Call → Option Packed
  | .addKey part => p.slot?.map fun _ => { p with parts := p.parts ++ [part] }
  | .addIndexKey part =>
    if p.cursor ≤ p.parts.length ∧ p.cursor + 1 < 2 ^ 64 then
      some { p with parts := p.parts.insertIdx p.cursor part, cursor := p.cursor + 1 }
    else none
  | .clearSlot slot =>
    if p.cursor + slot < 2 ^ 64 then some { p with parts := p.parts.set (p.cursor + slot) .null } else none
  | .dropIndex =>
    if p.cursor ≤ p.parts.length then some { p with parts := p.parts.drop p.cursor, cursor := 0 } else none
  | .setKey key marked => some (p.setKey key marked)
  | .reject => some { p with rejected := true }

/-- What calls make of a fresh list. -/
def run? (calls : List Call) : Option Packed := calls.foldlM step? {}

/-- The part behind the others that tells the cursor, which the parts can tell up to the largest of their numbers. -/
def marker (p : Packed) : List KeyPart :=
  if p.cursor = 0 then [] else [.int (Int64.ofNat (min p.cursor (2 ^ 63 - 1)))]

/-- The entry that the list has become, unless it was rejected. -/
def finish? (p : Packed) : Option (Key × Document) :=
  if p.rejected then none else some (⟨p.parts ++ p.marker⟩, p.doc)

end Packed

/-- A draft in one list. -/
def pack (d : Draft) : Packed := ⟨d.rejected, d.parts, d.index.length, d.doc⟩

theorem cursor_le (d : Draft) : d.pack.cursor ≤ d.pack.parts.length := by simp [pack, parts]

/-! ## What the calls make of the list -/

theorem slot?_pack (d : Draft) : d.pack.slot? = some d.nextSlot := by
  rw [Packed.slot?, if_pos (cursor_le d)]
  simp [pack, parts, nextSlot]

theorem getElem?_pack (d : Draft) (slot : Nat) : d.pack.parts[d.pack.cursor + slot]? = d.normal[slot]? := by
  rw [pack, parts, List.getElem?_append_right (Nat.le_add_right _ _), Nat.add_sub_cancel_left]

theorem pack_clearSlot (d : Draft) (slot : Nat) :
    (d.clearSlot slot).pack = { d.pack with parts := d.pack.parts.set (d.pack.cursor + slot) .null } := by
  simp [pack, clearSlot, parts]

theorem setKey_pack (d : Draft) (key : Key) (marked : Bool) : d.pack.setKey key marked = (d.setKey key marked).pack := by
  cases marked with
  | false => simp [Packed.setKey, setKey, pack, parts]
  | true =>
    rw [Packed.setKey, if_pos rfl, setKey, if_pos rfl]
    cases key.parts.getLast?.bind marker? with
    | none => rfl
    | some n =>
      by_cases within : n ≤ key.parts.dropLast.length
      · simp only [if_pos within]
        simpa [pack, parts] using within
      · simp only [if_neg within]
        rfl

/-- No call fails on the list of a draft that fits into memory, and what it makes of the list is what it makes of the
regions. -/
theorem step?_pack {d : Draft} (room : d.parts.length < 2 ^ 63) {c : Call}
    (short : ∀ slot, c = .clearSlot slot → slot < 2 ^ 63) : d.pack.step? c = some (d.apply c).pack := by
  have within := cursor_le d
  have room : d.pack.parts.length < 2 ^ 63 := room
  cases c with
  | addKey part =>
    rw [Packed.step?, slot?_pack]
    simp [pack, apply, Draft.addKey, parts]
  | addIndexKey part =>
    rw [Packed.step?, if_pos ⟨within, by omega⟩]
    simp [pack, apply, Draft.addIndexKey, parts, insertIdx_length]
  | clearSlot slot =>
    have := short slot rfl
    rw [Packed.step?, if_pos (by omega), apply, pack_clearSlot]
  | dropIndex =>
    rw [Packed.step?, if_pos within]
    simp [pack, apply, Draft.dropIndex, parts]
  | setKey key marked => exact congrArg some (setKey_pack d key marked)
  | reject => rfl

theorem run?_pack {calls : List Call} (short : ∀ slot, .clearSlot slot ∈ calls → slot < 2 ^ 63)
    (room : ∀ front, front <+: calls → (run front).parts.length < 2 ^ 63) :
    Packed.run? calls = some (run calls).pack := by
  -- From the back: each call needs room on the list that the calls before it leave.
  induction calls using List.reverseRecOn with
  | nil => rfl
  | append_singleton calls c ih =>
    have so_far := ih (fun slot mem => short slot (List.mem_append_left _ mem))
      fun front pre => room front (pre.trans (List.prefix_append _ _))
    rw [Packed.run?, List.foldlM_append, ← Packed.run?, so_far, run_append]
    have next := step?_pack (room calls (List.prefix_append _ _)) (c := c) fun slot own => short slot (by simp [own])
    simpa using next

/-! ## Finished keys -/

theorem marker_pack {d : Draft} (room : d.parts.length < 2 ^ 63) : d.pack.marker = d.marker := by
  have within : d.index.length < 2 ^ 63 := Nat.lt_of_le_of_lt (cursor_le d) room
  simp only [Packed.marker, marker, pack, List.length_eq_zero_iff]
  rw [Nat.min_eq_left (by omega)]

theorem finish?_pack {d : Draft} (room : d.parts.length < 2 ^ 63) : d.pack.finish? = d.finish? := by
  rw [Packed.finish?, marker_pack room]
  rfl

/-- A finished key is told by the value that stands for it, and splits into the regions that it was made of. -/
theorem exists_restored {d : Draft} (room : d.parts.length < 2 ^ 63) (kept : d.rejected = false) :
    ∃ key, d.pack.finish? = some (key, d.doc) ∧ ∃ key', Key.ofValue? key.toValue = some key' ∧
      ∀ e : Draft, e.setKey key' (decide (d.index ≠ [])) = { e with index := d.index, normal := d.normal } := by
  refine ⟨⟨d.parts ++ d.marker⟩, ?_, _, Key.ofValue?_toValue _, fun e => ?_⟩
  · rw [finish?_pack room, finish?, if_neg (by simp [kept])]
  · by_cases indexed : d.index = []
    · simp [setKey, indexed, marker, parts]
    · have told := marker?_ofNat (Nat.lt_of_le_of_lt (cursor_le d) room)
      rw [pack] at told
      simp [setKey, indexed, marker, told, parts]

/-- No call fails as long as the list fits into memory, and the key is the two regions that the calls tell.  A part keeps
its slot until the key is replaced, and clearing the slot takes that part alone; a rejection stays, and a finished key
splits into the regions again. -/
theorem keeps_two_regions {calls : List Call} (short : ∀ slot, .clearSlot slot ∈ calls → slot < 2 ^ 63)
    (room : ∀ front, front <+: calls → (run front).parts.length < 2 ^ 63) :
    Packed.run? calls = some (run calls).pack ∧
    (∃ start after start' after', Since Call.indexStart? calls start after ∧
      Since Call.normalStart? calls start' after' ∧
      (run calls).index = start ++ after.filterMap Call.indexPart? ∧
      (run calls).normal = start'.mapIdx (left after') ++ added start'.length after') ∧
    (∀ before part after, calls = before ++ .addKey part :: after → (∀ c ∈ after, c.normalStart? = none) →
      ∃ slot, (run before).pack.slot? = some slot ∧
        (run calls).pack.parts[(run calls).pack.cursor + slot]? = some (left after slot part) ∧
        ((run calls).clearSlot slot).pack = { (run calls).pack with
          parts := (run calls).pack.parts.set ((run calls).pack.cursor + slot) .null }) ∧
    (∀ front, front <+: calls → (run front).rejected = true → (run calls).rejected = true) ∧
    ((run calls).rejected = false →
      ∃ key, (run calls).pack.finish? = some (key, (run calls).doc) ∧
        ∃ key', Key.ofValue? key.toValue = some key' ∧
          ∀ e : Draft, e.setKey key' (decide ((run calls).index ≠ [])) =
            { e with index := (run calls).index, normal := (run calls).normal }) := by
  refine ⟨run?_pack short room, ?regions, ?slots, ?latch, exists_restored (room calls (List.prefix_refl _))⟩
  case regions =>
    obtain ⟨start, after, since⟩ := exists_since Call.indexStart? calls
    obtain ⟨start', after', since'⟩ := exists_since Call.normalStart? calls
    exact ⟨start, after, start', after', since, since', index_run since, normal_run since'⟩
  case slots =>
    rintro before part after rfl kept
    refine ⟨_, slot?_pack _, ?_, pack_clearSlot _ _⟩
    rw [getElem?_pack, getElem?_normal_run kept]
  case latch =>
    rintro front ⟨rest, rfl⟩ rejected
    rw [rejected_run] at rejected
    rw [rejected_run, List.any_append, rejected, Bool.true_or]

/-- Parts of the key that was set, cleared and added, behind index parts that were dropped and added again. -/
theorem keeps_two_regions_index_dropped :
    let calls : List Call := [.addKey (.text "s"), .addIndexKey (.int 7),
      .setKey ⟨[.text "i", .text "a", .int 1]⟩ true, .addKey (.text "b"), .addIndexKey (.text "j"), .clearSlot 0,
      .dropIndex, .addIndexKey (.text "k")]
    (∀ slot, .clearSlot slot ∈ calls → slot < 2 ^ 63) ∧
      (∀ front, front <+: calls → (run front).parts.length < 2 ^ 63) ∧
      Packed.run? calls = some ⟨false, [.text "k", .null, .text "b"], 1, .empty⟩ := by
  intro calls
  have short : ∀ slot, .clearSlot slot ∈ calls → slot < 2 ^ 63 := by simp [calls]
  have room : ∀ front ∈ calls.inits, (run front).parts.length < 2 ^ 63 := by decide
  have room : ∀ front, front <+: calls → (run front).parts.length < 2 ^ 63 :=
    fun front pre => room front ((List.mem_inits _ _).2 pre)
  exact ⟨short, room, (keeps_two_regions short room).1.trans rfl⟩

end Draft

end Rollup
