import Mathlib.Tactic
import Rollup.Ingest.Keys
import Rollup.Proofs.SortedMap

/-!
# Groups and their division

The groups of a queue have different keys, and a group holds all documents of its key in queue
order.  Dividing groups among workers loses none and doubles none.
-/

namespace Rollup.Ingest

/-- The documents queued under a key. -/
def docsOf (entries : List (Key × Document)) (key : Key) : List Document :=
  (entries.filter fun e => e.1 = key).map Prod.snd

theorem docsOf_append (front back : List (Key × Document)) (key : Key) :
    docsOf (front ++ back) key = docsOf front key ++ docsOf back key := by
  rw [docsOf, List.filter_append, List.map_append]
  rfl

theorem mem_docsOf {entries : List (Key × Document)} {key : Key} {d : Document} :
    d ∈ docsOf entries key ↔ (key, d) ∈ entries := by
  simp [docsOf]

/-! ## Grouping -/

/-- The groups of a queue, by their keys. -/
def grouping (entries : List (Key × Document)) : SortedMap Key (List Document) :=
  entries.foldr (fun e m => m.insert e.1 (e.2 :: (m.get? e.1).getD [])) .empty

theorem get?_grouping (entries : List (Key × Document)) (key : Key) :
    (grouping entries).get? key =
      if docsOf entries key = [] then none else some (docsOf entries key) := by
  induction entries with
  | nil => rfl
  | cons e rest ih =>
    obtain ⟨k, d⟩ := e
    have listed : ((grouping rest).get? key).getD [] = docsOf rest key := by
      rw [ih]
      split
      · next none => exact none.symm
      · rfl
    rw [grouping, List.foldr_cons, SortedMap.get?_insert]
    by_cases same : key = k
    · subst same
      have first : docsOf ((key, d) :: rest) key = d :: docsOf rest key := by simp [docsOf]
      rw [if_pos rfl, first, if_neg (List.cons_ne_nil _ _), ← listed]
      rfl
    · have other : docsOf ((k, d) :: rest) key = docsOf rest key := by simp [docsOf, Ne.symm same]
      rw [if_neg same, other]
      exact ih

theorem sorted_grouping (entries : List (Key × Document)) : (grouping entries).Sorted := by
  induction entries with
  | nil => exact SortedMap.sorted_empty
  | cons e rest ih => exact ih.insert _ _

theorem nodup_groupByKey (entries : List (Key × Document)) :
    ((groupByKey entries).map Prod.fst).Nodup :=
  (sorted_grouping entries).nodup_keys

/-- The groups are the keys that have documents, with all of them. -/
theorem mem_groupByKey {entries : List (Key × Document)} {group : Group} :
    group ∈ groupByKey entries ↔ group.2 = docsOf entries group.1 ∧ group.2 ≠ [] := by
  obtain ⟨key, docs⟩ := group
  show (key, docs) ∈ (grouping entries).toList ↔ _
  rw [(sorted_grouping entries).mem_toList_iff, get?_grouping]
  constructor
  · intro found
    split at found
    · cases found
    · next some =>
      cases found
      exact ⟨rfl, some⟩
  · rintro ⟨same, some⟩
    simp only at same some
    rw [if_neg (same ▸ some), same]

/-! ## Division among workers -/

section Perm

variable {κ α : Type} [Ord κ] [Std.LawfulEqOrd κ] [Std.TransOrd κ]

theorem flatten_place_perm {key : κ} {x : α} {lists : List (κ × List α)}
    (sorted : SortedMap.Sorted ⟨lists⟩) :
    ((SortedMap.place key (x :: (SortedMap.lookup key lists).getD []) lists).map Prod.snd).flatten.Perm
      (x :: (lists.map Prod.snd).flatten) := by
  induction lists with
  | nil => exact List.Perm.refl _
  | cons first rest ih =>
    obtain ⟨k, xs⟩ := first
    obtain ⟨before, later⟩ := List.pairwise_cons.1 sorted
    cases order : compare key k with
    | lt =>
      have missing : SortedMap.lookup key ((k, xs) :: rest) = none := by
        cases found : SortedMap.lookup key ((k, xs) :: rest) with
        | none => rfl
        | some ys =>
          rcases List.mem_cons.1 (SortedMap.mem_of_lookup found) with same | behind
          · cases same
            rw [Std.ReflOrd.compare_self] at order
            cases order
          · have less := Std.TransCmp.lt_trans order (before _ behind)
            rw [Std.ReflOrd.compare_self] at less
            cases less
      rw [missing, SortedMap.place, order]
      exact List.Perm.refl _
    | eq =>
      rw [SortedMap.lookup, if_pos order, SortedMap.place, order]
      exact List.Perm.refl _
    | gt =>
      have behind : SortedMap.lookup key ((k, xs) :: rest) = SortedMap.lookup key rest := by
        rw [SortedMap.lookup, if_neg (by simp [order])]
      rw [behind, SortedMap.place, order]
      exact ((ih later).append_left xs).trans List.perm_middle

end Perm

/-- Every group goes to one worker. -/
theorem flatten_partitions_perm (workers : Nat) (groups : List Group) :
    (partitions workers groups).flatten.Perm groups := by
  suffices ∀ m : SortedMap Nat (List Group), m.Sorted →
      let divided := groups.foldr (fun g m =>
        m.insert (slot workers g.1) (g :: (m.get? (slot workers g.1)).getD [])) m
      divided.Sorted ∧ (divided.toList.map Prod.snd).flatten.Perm (groups ++ (m.toList.map Prod.snd).flatten) by
    have whole := (this .empty SortedMap.sorted_empty).2
    rwa [show (SortedMap.empty : SortedMap Nat (List Group)).toList = [] from rfl, List.map_nil,
      List.flatten_nil, List.append_nil] at whole
  intro m sorted
  induction groups with
  | nil => exact ⟨sorted, List.Perm.refl _⟩
  | cons group rest ih =>
    refine ⟨ih.1.insert _ _, ?_⟩
    exact (flatten_place_perm ih.1).trans (ih.2.cons group)

end Rollup.Ingest
