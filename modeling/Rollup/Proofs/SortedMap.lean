import Mathlib.Data.List.Forall2
import Rollup.SortedMap

/-!
# Entries and look-ups

In a map whose entries are in order, the entries are exactly what look-ups find.  An entry under a
new key comes to the others, and erasing a key takes its entry from them.  Maps that have the same keys
can be compared entry by entry (`forall₂_of_sorted`).
-/

namespace Rollup.SortedMap

universe u v w

variable {κ : Type u} {ν : Type v} [Ord κ]

theorem place_perm {key : κ} {entries : List (κ × ν)} (fresh : lookup key entries = none) (value : ν) :
    (place key value entries).Perm ((key, value) :: entries) := by
  induction entries with
  | nil => exact List.Perm.refl _
  | cons e rest ih =>
    obtain ⟨k, x⟩ := e
    rw [lookup] at fresh
    split at fresh
    · cases fresh
    · next apart =>
      rw [place]
      split
      · exact List.Perm.refl _
      · next same => exact absurd same apart
      · exact ((ih fresh).cons _).trans (List.Perm.swap _ _ _)

/-- An entry under a new key comes to the others. -/
theorem toList_insert_perm {m : SortedMap κ ν} {key : κ} (fresh : m.get? key = none) (value : ν) :
    (m.insert key value).toList.Perm ((key, value) :: m.toList) :=
  place_perm fresh value

/-- Entries stand in the same places, with values that are related. -/
abbrev Paired (R : κ → ν → ν → Prop) (m m' : List (κ × ν)) : Prop :=
  List.Forall₂ (fun e e' => e.1 = e'.1 ∧ R e.1 e.2 e'.2) m m'

/-- Writing related values keeps entries in the same places. -/
theorem Paired.place {R : κ → ν → ν → Prop} {m m' : List (κ × ν)} (paired : Paired R m m') {key : κ} {x y : ν}
    (related : R key x y) : Paired R (place key x m) (place key y m') := by
  induction paired with
  | nil => exact .cons ⟨rfl, related⟩ .nil
  | @cons e e' rest rest' own paired ih =>
    obtain ⟨k, v⟩ := e
    obtain ⟨k', v'⟩ := e'
    obtain rfl : k = k' := own.1
    rw [SortedMap.place, SortedMap.place]
    cases compare key k with
    | lt => exact .cons ⟨rfl, related⟩ (.cons own paired)
    | eq => exact .cons ⟨rfl, related⟩ paired
    | gt => exact .cons own ih

theorem lookup_map {ω : Type w} (f : ν → ω) (key : κ) (entries : List (κ × ν)) :
    lookup key (entries.map fun e => (e.1, f e.2)) = (lookup key entries).map f := by
  induction entries with
  | nil => rfl
  | cons e rest ih =>
    rw [List.map_cons, lookup, lookup, ih]
    split <;> rfl

theorem get?_mapValues {ω : Type w} (f : ν → ω) (m : SortedMap κ ν) (key : κ) :
    (m.mapValues f).get? key = (m.get? key).map f :=
  lookup_map f key m.entries

section LawfulEq

variable [Std.LawfulEqOrd κ]

theorem lookup_filter (p : κ → Bool) (key : κ) (entries : List (κ × ν)) :
    lookup key (entries.filter fun e => p e.1) = if p key then lookup key entries else none := by
  induction entries with
  | nil => simp [lookup]
  | cons e rest ih =>
    obtain ⟨k, x⟩ := e
    by_cases same : key = k
    · subst same
      by_cases kept : p key <;> simp_all [lookup]
    · have apart : compare key k ≠ .eq := fun eq => same (Std.LawfulEqOrd.eq_of_compare eq)
      by_cases kept : p k <;> simp_all [lookup]

/-- Entries that are kept by their keys are found as before. -/
theorem get?_filter (p : κ → Bool) (m : SortedMap κ ν) (key : κ) :
    (m.filter fun k _ => p k).get? key = if p key then m.get? key else none :=
  lookup_filter p key m.entries

/-- Where related values are equal, entries in the same places are looked up alike. -/
theorem Paired.lookup_eq {R : κ → ν → ν → Prop} {m m' : List (κ × ν)} (paired : Paired R m m') {key : κ}
    (equal : ∀ x y, R key x y → x = y) : lookup key m = lookup key m' := by
  induction paired with
  | nil => rfl
  | @cons e e' rest rest' own _ ih =>
    obtain ⟨k, v⟩ := e
    obtain ⟨k', v'⟩ := e'
    obtain rfl : k = k' := own.1
    rw [lookup, lookup, ih]
    split
    · next same =>
      obtain rfl := Std.LawfulEqOrd.eq_of_compare same
      exact congrArg some (equal v v' own.2)
    · rfl

theorem mem_of_lookup {key : κ} {value : ν} {entries : List (κ × ν)}
    (found : lookup key entries = some value) : (key, value) ∈ entries := by
  induction entries with
  | nil => cases found
  | cons e rest ih =>
    obtain ⟨k, x⟩ := e
    rw [lookup] at found
    split at found
    · next same =>
      obtain rfl := Std.LawfulEqOrd.eq_of_compare same
      cases found
      exact List.mem_cons_self
    · exact List.mem_cons_of_mem _ (ih found)

theorem lookup_of_mem {key : κ} {value : ν} {entries : List (κ × ν)}
    (sorted : entries.Pairwise fun a b => compare a.1 b.1 = .lt) (mem : (key, value) ∈ entries) :
    lookup key entries = some value := by
  induction entries with
  | nil => cases mem
  | cons e rest ih =>
    obtain ⟨k, x⟩ := e
    obtain ⟨first, later⟩ := List.pairwise_cons.1 sorted
    rw [lookup]
    rcases List.mem_cons.1 mem with same | behind
    · cases same
      rw [Std.ReflOrd.compare_self, if_pos rfl]
    · have apart : compare key k ≠ .eq := by
        intro same
        obtain rfl := Std.LawfulEqOrd.eq_of_compare same
        have less := first _ behind
        rw [Std.ReflOrd.compare_self] at less
        cases less
      rw [if_neg apart]
      exact ih later behind

/-- The entries of a map in order are what look-ups find. -/
theorem Sorted.mem_toList_iff {m : SortedMap κ ν} (sorted : m.Sorted) {key : κ} {value : ν} :
    (key, value) ∈ m.toList ↔ m.get? key = some value :=
  ⟨lookup_of_mem sorted, mem_of_lookup⟩

/-- A map in order has every key once. -/
theorem Sorted.nodup_keys {m : SortedMap κ ν} (sorted : m.Sorted) : (m.toList.map Prod.fst).Nodup := by
  refine List.pairwise_map.2 (List.Pairwise.imp ?_ sorted)
  intro a b less same
  rw [same, Std.ReflOrd.compare_self] at less
  cases less

theorem filter_ne_perm {key : κ} {value : ν} {entries : List (κ × ν)}
    (sorted : entries.Pairwise fun a b => compare a.1 b.1 = .lt) (found : lookup key entries = some value) :
    entries.Perm ((key, value) :: entries.filter fun e => compare key e.1 ≠ .eq) := by
  induction entries with
  | nil => cases found
  | cons e rest ih =>
    obtain ⟨k, x⟩ := e
    obtain ⟨first, later⟩ := List.pairwise_cons.1 sorted
    rw [lookup] at found
    by_cases same : compare key k = .eq
    · rw [if_pos same] at found
      cases found
      obtain rfl := Std.LawfulEqOrd.eq_of_compare same
      -- The keys behind are greater, so none of them is dropped.
      have kept : rest.filter (fun e => compare key e.1 ≠ .eq) = rest := by
        apply List.filter_eq_self.2
        intro e mem
        simp [first e mem]
      rw [List.filter_cons_of_neg (by simp), kept]
    · rw [if_neg same] at found
      rw [List.filter_cons_of_pos (by simpa using same)]
      exact ((ih later found).cons _).trans (List.Perm.swap _ _ _)

/-- Erasing a key takes its entry from the others. -/
theorem Sorted.toList_erase_perm {m : SortedMap κ ν} (sorted : m.Sorted) {key : κ} {value : ν}
    (found : m.get? key = some value) : m.toList.Perm ((key, value) :: (m.erase key).toList) :=
  filter_ne_perm sorted found

end LawfulEq

/-- A key behind all others goes to the end. -/
theorem place_of_last [Std.OrientedOrd κ] {key : κ} {entries : List (κ × ν)}
    (last : ∀ e ∈ entries, compare e.1 key = .lt) (value : ν) : place key value entries = entries ++ [(key, value)] := by
  induction entries with
  | nil => rfl
  | cons e rest ih =>
    obtain ⟨k, x⟩ := e
    have behind : compare key k = .gt := Std.OrientedCmp.gt_of_lt (last _ List.mem_cons_self)
    rw [place, behind, ih fun e mem => last e (List.mem_cons_of_mem _ mem)]
    rfl

/-- Inserting the entries of a map in order gives the map. -/
theorem Sorted.ofList_entries [Std.OrientedOrd κ] {m : SortedMap κ ν} (sorted : m.Sorted) :
    SortedMap.ofList m.entries = m := by
  suffices ∀ rest front : List (κ × ν), Sorted ⟨front ++ rest⟩ →
      rest.foldl (fun m e => m.insert e.1 e.2) ⟨front⟩ = (⟨front ++ rest⟩ : SortedMap κ ν) from this m.entries [] sorted
  intro rest
  induction rest with
  | nil => intro front _; rw [List.append_nil]; rfl
  | cons e rest ih =>
    intro front sorted
    have last : ∀ f ∈ front, compare f.1 e.1 = .lt := fun f mem =>
      (List.pairwise_append.1 sorted).2.2 f mem e List.mem_cons_self
    have own : front ++ e :: rest = front ++ [e] ++ rest := by rw [List.append_assoc, List.singleton_append]
    rw [List.foldl_cons, SortedMap.insert, place_of_last last, own]
    exact ih (front ++ [e]) (own ▸ sorted)

section Order

variable [Std.TransOrd κ] [Std.LawfulEqOrd κ]

omit [Std.TransOrd κ] in
/-- In a list in order no later entry has the key of the first. -/
theorem ne_of_mem_tail {e f : κ × ν} {rest : List (κ × ν)}
    (sorted : (e :: rest).Pairwise fun a b => compare a.1 b.1 = .lt) (mem : f ∈ rest) : e.1 ≠ f.1 := by
  intro same
  have less := (List.pairwise_cons.1 sorted).1 f mem
  rw [same, Std.ReflOrd.compare_self] at less
  cases less

/-- The first keys of lists in order are the same if each is found in the other list. -/
theorem head_eq_of_mem {e e' : κ × ν} {rest rest' : List (κ × ν)}
    (sorted : (e :: rest).Pairwise fun a b => compare a.1 b.1 = .lt)
    (sorted' : (e' :: rest').Pairwise fun a b => compare a.1 b.1 = .lt)
    (there : ∃ f' ∈ e' :: rest', e.1 = f'.1) (back : ∃ f ∈ e :: rest, f.1 = e'.1) : e.1 = e'.1 := by
  obtain ⟨f', mem', eq⟩ := there
  obtain ⟨f, mem, eq'⟩ := back
  rcases List.mem_cons.1 mem' with rfl | behind'
  · exact eq
  rcases List.mem_cons.1 mem with rfl | behind
  · exact eq'
  -- Else each would come before the other.
  have less := (List.pairwise_cons.1 sorted).1 f behind
  have less' := (List.pairwise_cons.1 sorted').1 f' behind'
  rw [eq'] at less
  rw [← eq] at less'
  have both := Std.TransCmp.lt_trans less less'
  rw [Std.ReflOrd.compare_self] at both
  cases both

/-- Entries in order that have the same keys stand in the same places. -/
theorem forall₂_of_sorted {R : ν → ν → Prop} {m m' : List (κ × ν)}
    (sorted : m.Pairwise fun a b => compare a.1 b.1 = .lt) (sorted' : m'.Pairwise fun a b => compare a.1 b.1 = .lt)
    (there : ∀ e ∈ m, ∃ e' ∈ m', e.1 = e'.1 ∧ R e.2 e'.2) (back : ∀ e' ∈ m', ∃ e ∈ m, e.1 = e'.1) :
    List.Forall₂ (fun e e' => e.1 = e'.1 ∧ R e.2 e'.2) m m' := by
  induction m generalizing m' with
  | nil =>
    cases m' with
    | nil => exact .nil
    | cons e' rest' =>
      obtain ⟨e, mem, -⟩ := back e' List.mem_cons_self
      cases mem
  | cons e rest ih =>
    cases m' with
    | nil =>
      obtain ⟨e', mem, -⟩ := there e List.mem_cons_self
      cases mem
    | cons e' rest' =>
      obtain ⟨first, listed, own, holds⟩ := there e List.mem_cons_self
      have same := head_eq_of_mem sorted sorted' ⟨first, listed, own⟩ (back e' List.mem_cons_self)
      have related : R e.2 e'.2 := by
        rcases List.mem_cons.1 listed with rfl | behind'
        · exact holds
        · exact absurd (same.symm.trans own) (ne_of_mem_tail sorted' behind')
      refine .cons ⟨same, related⟩ (ih sorted.of_cons sorted'.of_cons (fun f mem => ?_) fun f' mem' => ?_)
      · obtain ⟨f', mem', eq, holds⟩ := there f (List.mem_cons_of_mem e mem)
        rcases List.mem_cons.1 mem' with rfl | behind'
        · exact absurd (same.trans eq.symm) (ne_of_mem_tail sorted mem)
        · exact ⟨f', behind', eq, holds⟩
      · obtain ⟨f, mem, eq⟩ := back f' (List.mem_cons_of_mem e' mem')
        rcases List.mem_cons.1 mem with rfl | behind
        · exact absurd (same.symm.trans eq) (ne_of_mem_tail sorted' mem')
        · exact ⟨f, behind, eq⟩

/-- Lists in order with the same entries are the same. -/
theorem eq_of_mem_iff {m m' : List (κ × ν)} (sorted : m.Pairwise fun a b => compare a.1 b.1 = .lt)
    (sorted' : m'.Pairwise fun a b => compare a.1 b.1 = .lt) (same : ∀ e, e ∈ m ↔ e ∈ m') : m = m' := by
  have paired := forall₂_of_sorted (R := Eq) sorted sorted' (fun e mem => ⟨e, (same e).1 mem, rfl, rfl⟩)
    fun e mem => ⟨e, (same e).2 mem, rfl⟩
  rw [← List.forall₂_eq_eq_eq]
  exact paired.imp fun _ _ eq => Prod.ext eq.1 eq.2

/-- A map in order is what look-ups find. -/
theorem Sorted.ext {m m' : SortedMap κ ν} (sorted : m.Sorted) (sorted' : m'.Sorted)
    (same : ∀ key, m.get? key = m'.get? key) : m = m' := by
  obtain ⟨entries⟩ := m
  obtain ⟨entries'⟩ := m'
  obtain rfl : entries = entries' := by
    refine eq_of_mem_iff sorted sorted' fun e => ?_
    exact sorted.mem_toList_iff.trans ((Eq.congr_left (same e.1)).trans sorted'.mem_toList_iff.symm)
  rfl

end Order

end Rollup.SortedMap
