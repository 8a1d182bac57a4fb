/-!
# Maps kept in key order

A `SortedMap` is a list of entries that its operations keep in ascending key order.  Documents,
key groups and stored scopes all list their entries in that order, so the list itself is what a
reader sees.  The type is plain data, because documents nest in documents; `Sorted` is the
invariant that every operation keeps.

A look-up is described by one equation per operation (`get?_insert`, `get?_erase`), which hold of
every list; `Sorted.insert`, `Sorted.erase` and `Sorted.ofList` keep the order.
-/

namespace Rollup

universe u v w

/-- Entries in ascending key order. -/
structure SortedMap (κ : Type u) (ν : Type v) where
  entries : List (κ × ν)
deriving Repr, DecidableEq

namespace SortedMap

variable {κ : Type u} {ν : Type v} {ω : Type w} [Ord κ]

/-! ## Operations on entry lists -/

/-- The value of the first entry under `key`. -/
def lookup (key : κ) : List (κ × ν) → Option ν
  | [] => none
  | (k, x) :: rest => if compare key k = .eq then some x else lookup key rest

/-- Writes `value` under `key`, ahead of the first greater key. -/
def place (key : κ) (value : ν) : List (κ × ν) → List (κ × ν)
  | [] => [(key, value)]
  | (k, x) :: rest =>
    match compare key k with
    | .lt => (key, value) :: (k, x) :: rest
    | .eq => (key, value) :: rest
    | .gt => (k, x) :: place key value rest

/-! ## The map -/

/-- The map without entries. -/
def empty : SortedMap κ ν := ⟨[]⟩

instance : EmptyCollection (SortedMap κ ν) := ⟨⟨[]⟩⟩

instance : Inhabited (SortedMap κ ν) := ⟨⟨[]⟩⟩

/-- The value stored under `key`. -/
def get? (m : SortedMap κ ν) (key : κ) : Option ν := lookup key m.entries

/-- Whether `key` has a value. -/
def contains (m : SortedMap κ ν) (key : κ) : Bool := (m.get? key).isSome

/-- Writes `value` under `key`, replacing what was there. -/
def insert (m : SortedMap κ ν) (key : κ) (value : ν) : SortedMap κ ν := ⟨place key value m.entries⟩

/-- Drops the entry under `key`. -/
def erase (m : SortedMap κ ν) (key : κ) : SortedMap κ ν :=
  ⟨m.entries.filter fun e => compare key e.1 ≠ .eq⟩

/-- The entries, in ascending key order. -/
def toList (m : SortedMap κ ν) : List (κ × ν) := m.entries

/-- The keys, in ascending order. -/
def keys (m : SortedMap κ ν) : List κ := m.entries.map Prod.fst

/-- The number of entries. -/
def size (m : SortedMap κ ν) : Nat := m.entries.length

/-- Inserts a list of entries one by one, so the last entry of a key wins. -/
def ofList (entries : List (κ × ν)) : SortedMap κ ν :=
  entries.foldl (fun m e => m.insert e.1 e.2) empty

/-- Applies `f` to every value. -/
def mapValues (f : ν → ω) (m : SortedMap κ ν) : SortedMap κ ω :=
  ⟨m.entries.map fun e => (e.1, f e.2)⟩

/-- Keeps the entries that satisfy `p`. -/
def filter (p : κ → ν → Bool) (m : SortedMap κ ν) : SortedMap κ ν :=
  ⟨m.entries.filter fun e => p e.1 e.2⟩

/-! ## Look-ups -/

@[simp] theorem get?_empty (key : κ) : (empty : SortedMap κ ν).get? key = none := rfl

section LawfulEq

variable [Std.LawfulEqOrd κ] [DecidableEq κ]

theorem lookup_place (key other : κ) (value : ν) (entries : List (κ × ν)) :
    lookup other (place key value entries) =
      if other = key then some value else lookup other entries := by
  induction entries with
  | nil => simp [place, lookup]
  | cons e rest ih =>
    obtain ⟨k, x⟩ := e
    rw [place]
    split
    · simp [lookup]
    · next h =>
      have := Std.LawfulEqOrd.eq_of_compare h
      subst this
      by_cases hk : other = key <;> simp [lookup, hk]
    · next h =>
      have hne : key ≠ k := fun he => by
        subst he
        rw [Std.ReflOrd.compare_self] at h
        cases h
      by_cases hk : other = k
      · subst hk
        simp [lookup, Ne.symm hne]
      · simp [lookup, hk, ih]

/-- An insertion is seen under its own key and nowhere else. -/
theorem get?_insert (m : SortedMap κ ν) (key other : κ) (value : ν) :
    (m.insert key value).get? other = if other = key then some value else m.get? other :=
  lookup_place key other value m.entries

theorem lookup_filter_ne (key other : κ) (entries : List (κ × ν)) :
    lookup other (entries.filter fun e => compare key e.1 ≠ .eq) =
      if other = key then none else lookup other entries := by
  induction entries with
  | nil => simp [lookup]
  | cons e rest ih =>
    obtain ⟨k, x⟩ := e
    by_cases hk : key = k
    · subst hk
      by_cases ho : other = key <;> simp_all [lookup]
    · by_cases ho : other = k
      · subst ho
        simp [lookup, hk, Ne.symm hk]
      · simp_all [lookup]

/-- An erased key has no value, and every other key keeps its own. -/
theorem get?_erase (m : SortedMap κ ν) (key other : κ) :
    (m.erase key).get? other = if other = key then none else m.get? other :=
  lookup_filter_ne key other m.entries

end LawfulEq

/-! ## The order of the entries -/

/-- The keys ascend strictly. -/
def Sorted (m : SortedMap κ ν) : Prop :=
  m.entries.Pairwise fun a b => compare a.1 b.1 = .lt

theorem sorted_empty : (empty : SortedMap κ ν).Sorted := List.Pairwise.nil

theorem mem_place {key : κ} {value : ν} {e : κ × ν} {entries : List (κ × ν)}
    (h : e ∈ place key value entries) : e = (key, value) ∨ e ∈ entries := by
  induction entries with
  | nil => simpa [place] using h
  | cons first rest ih =>
    obtain ⟨k, x⟩ := first
    rw [place] at h
    split at h
    · simpa using h
    · rcases List.mem_cons.1 h with h | h
      · exact .inl h
      · exact .inr (List.mem_cons_of_mem _ h)
    · rcases List.mem_cons.1 h with h | h
      · exact .inr (h ▸ List.mem_cons_self)
      · rcases ih h with h | h
        · exact .inl h
        · exact .inr (List.mem_cons_of_mem _ h)

section Order

variable [Std.TransOrd κ] [Std.LawfulEqOrd κ]

theorem Sorted.insert {m : SortedMap κ ν} (h : m.Sorted) (key : κ) (value : ν) :
    (m.insert key value).Sorted := by
  obtain ⟨entries⟩ := m
  simp only [Sorted, SortedMap.insert] at h ⊢
  induction entries with
  | nil => simp [place]
  | cons first rest ih =>
    obtain ⟨k, x⟩ := first
    obtain ⟨hfirst, hrest⟩ := List.pairwise_cons.1 h
    rw [place]
    split
    · next hlt =>
      refine List.pairwise_cons.2 ⟨fun e he => ?_, h⟩
      rcases List.mem_cons.1 he with rfl | he
      · exact hlt
      · exact Std.TransCmp.lt_trans hlt (hfirst e he)
    · next heq =>
      have := Std.LawfulEqOrd.eq_of_compare heq
      subst this
      exact List.pairwise_cons.2 ⟨hfirst, hrest⟩
    · next hgt =>
      refine List.pairwise_cons.2 ⟨fun e he => ?_, ih hrest⟩
      rcases mem_place he with rfl | he
      · exact Std.OrientedCmp.lt_of_gt hgt
      · exact hfirst e he

theorem Sorted.ofList (entries : List (κ × ν)) : (SortedMap.ofList entries).Sorted := by
  suffices ∀ (es : List (κ × ν)) (m : SortedMap κ ν), m.Sorted →
      (es.foldl (fun m e => m.insert e.1 e.2) m).Sorted from this entries _ sorted_empty
  intro es
  induction es with
  | nil => exact fun _ h => h
  | cons e rest ih => exact fun m h => ih _ (h.insert e.1 e.2)

end Order

theorem Sorted.erase {m : SortedMap κ ν} (h : m.Sorted) (key : κ) : (m.erase key).Sorted :=
  List.Pairwise.filter _ h

theorem Sorted.filter {m : SortedMap κ ν} (h : m.Sorted) (p : κ → ν → Bool) :
    (m.filter p).Sorted :=
  List.Pairwise.filter _ h

end SortedMap

end Rollup
