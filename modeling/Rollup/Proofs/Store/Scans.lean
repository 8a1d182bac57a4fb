import Rollup.Proofs.Store.Handles

/-!
# Range scans

A scan for the keys that begin with `front` starts at `front` and stops at the first key that does not
begin with it.  It misses nothing (`entriesUnder_eq_filter`): no key in front of `front` begins with it,
and a key between `front` and one of its extensions is an extension of `front` itself
(`startsWith_of_between`).  Both rest on the entries standing in order, which every request to a store
keeps (`Holder.sorted_acts`).
-/

namespace Rollup

/-! ## Keys that begin with a key -/

namespace Key

variable {a b front : Key}

theorem startsWith_iff : a.startsWith front = true ↔ front.parts <+: a.parts := List.isPrefixOf_iff_prefix

theorem compare_append_ne_lt (parts rest : List KeyPart) : compare (parts ++ rest) parts ≠ .lt := by
  induction parts with
  | nil => cases rest <;> simp
  | cons p parts ih =>
    rw [List.cons_append, List.compare_cons_cons, Std.ReflOrd.compare_self]
    exact ih

/-- A key comes before its extensions. -/
theorem compare_ne_lt_of_startsWith (starts : a.startsWith front = true) : compare a front ≠ .lt := by
  obtain ⟨rest, eq⟩ := startsWith_iff.1 starts
  rw [compare_def, ← eq]
  exact compare_append_ne_lt front.parts rest

theorem prefix_of_between {xs ys fs : List KeyPart} (behind : compare xs fs ≠ .lt) (before : compare xs ys = .lt)
    (starts : fs <+: ys) : fs <+: xs := by
  induction fs generalizing xs ys with
  | nil => exact List.nil_prefix
  | cons f fs ih =>
    obtain ⟨ys, rfl, starts⟩ := List.cons_prefix_iff.1 starts
    cases xs with
    | nil => exact absurd List.compare_nil_cons behind
    | cons x xs =>
      rw [List.compare_cons_cons] at behind before
      -- The first part is not less than `f`, and it is not greater.
      cases first : compare x f with
      | lt =>
        rw [first] at behind
        exact absurd rfl behind
      | gt =>
        rw [first] at before
        cases before
      | eq =>
        rw [first] at behind before
        obtain rfl := Std.LawfulEqOrd.eq_of_compare first
        exact (List.prefix_cons_inj x).2 (ih behind before ((List.prefix_cons_inj x).1 starts))

/-- A key between another one and an extension of it is an extension of it, too. -/
theorem startsWith_of_between (behind : compare a front ≠ .lt) (before : compare a b = .lt)
    (starts : b.startsWith front = true) : a.startsWith front = true :=
  startsWith_iff.2 (prefix_of_between behind before (startsWith_iff.1 starts))

end Key

namespace Store

variable {ν : Type} {front : Key} {entries : List (Key × ν)}

theorem takeWhile_eq_filter (sorted : entries.Pairwise fun a b => compare a.1 b.1 = .lt)
    (behind : ∀ e ∈ entries, compare e.1 front ≠ .lt) :
    (entries.takeWhile fun e => e.1.startsWith front) = entries.filter fun e => e.1.startsWith front := by
  induction entries with
  | nil => rfl
  | cons e rest ih =>
    obtain ⟨first, later⟩ := List.pairwise_cons.1 sorted
    by_cases starts : e.1.startsWith front = true
    · rw [List.takeWhile_cons, List.filter_cons, if_pos starts, if_pos starts,
        ih later fun e' mem => behind e' (List.mem_cons_of_mem e mem)]
    · rw [List.takeWhile_cons, List.filter_cons, if_neg starts, if_neg starts, eq_comm, List.filter_eq_nil_iff]
      intro e' mem starts'
      exact starts (Key.startsWith_of_between (behind e List.mem_cons_self) (first e' mem) starts')

/-- In entries in order, those whose keys begin with a key stand together from that key on. -/
theorem takeWhile_dropWhile_eq_filter (sorted : entries.Pairwise fun a b => compare a.1 b.1 = .lt) :
    ((entries.dropWhile fun e => compare e.1 front = .lt).takeWhile fun e => e.1.startsWith front) =
      entries.filter fun e => e.1.startsWith front := by
  induction entries with
  | nil => rfl
  | cons e rest ih =>
    obtain ⟨first, later⟩ := List.pairwise_cons.1 sorted
    by_cases before : compare e.1 front = .lt
    · have apart : ¬ e.1.startsWith front = true := fun starts => Key.compare_ne_lt_of_startsWith starts before
      rw [List.dropWhile_cons, if_pos (decide_eq_true before), List.filter_cons, if_neg apart]
      exact ih later
    · rw [List.dropWhile_cons, if_neg (by simpa using before)]
      refine takeWhile_eq_filter sorted fun e' mem less => ?_
      rcases List.mem_cons.1 mem with rfl | mem
      · exact before less
      · exact before (Std.TransCmp.lt_trans (first e' mem) less)

variable {s : Store}

/-- A range scan of entries in order is a filtered full scan. -/
theorem entriesUnder_eq_of_sorted {id : ScopeId} (sorted : (s.buckets id).Sorted) (front : Key) :
    s.entriesUnder id front = (s.entries id).filter fun e => e.1.startsWith front :=
  takeWhile_dropWhile_eq_filter sorted

/-! ## The order of the entries -/

theorem sorted_fresh (id : ScopeId) : (({} : Store).buckets id).Sorted := by
  rw [buckets_fresh]
  exact SortedMap.sorted_empty

section Sorted

variable (sorted : ∀ id, (s.buckets id).Sorted)

include sorted

theorem sorted_modify (id : ScopeId) {f : Scope → Scope} (kept : ∀ x, x.values.Sorted → (f x).values.Sorted)
    (other : ScopeId) : ((s.modify id f).buckets other).Sorted := by
  by_cases same : other = id
  · subst same
    have before := sorted other
    rw [buckets, scope] at before ⊢
    rw [modify, List.getElem?_modify_eq]
    cases found : s.scopes[other]? with
    | none => exact SortedMap.sorted_empty
    | some x =>
      rw [found] at before
      exact kept x before
  · rw [buckets, s.scope_modify_of_ne same]
    exact sorted other

theorem sorted_set (id : ScopeId) (key : Key) (doc : Option Document) (other : ScopeId) :
    ((s.set id key doc).buckets other).Sorted := by
  cases doc with
  | some doc => exact sorted_modify sorted id (fun _ ordered => ordered.insert key doc) other
  | none => exact sorted_modify sorted id (fun _ ordered => ordered.erase key) other

theorem sorted_append {id : ScopeId} {doc : Document} {marker : Int64} {s' : Store}
    (made : s.append? id doc = some (marker, s')) (other : ScopeId) : (s'.buckets other).Sorted := by
  rw [append?] at made
  split at made
  · cases made
    exact sorted_modify sorted id (fun _ ordered => ordered.insert _ doc) other
  · cases made

theorem sorted_deleteChild (id : ScopeId) (name : Key) (other : ScopeId) :
    ((s.deleteChild id name).buckets other).Sorted := by
  rw [deleteChild]
  cases s.child? id name with
  | none => exact sorted other
  | some child =>
    rw [buckets, scope_eraseTree]
    split
    · exact SortedMap.sorted_empty
    · exact sorted other

/-- A request leaves the entries of every scope in order. -/
theorem sorted_after (id : ScopeId) (r : Request) (other : ScopeId) : ((s.after id r).buckets other).Sorted := by
  cases r with
  | opens name =>
    rw [after, s.buckets_openChild]
    exact sorted other
  | sets key doc => exact sorted_set sorted id key doc other
  | appends doc =>
    rcases s.after_appends id doc with same | ⟨marker, made⟩
    · rw [same]
      exact sorted other
    · exact sorted_append sorted made other
  | deletes name => exact sorted_deleteChild sorted id name other

end Sorted

namespace Holder

theorem sorted_acts {h : Holder} (sorted : ∀ id, (h.store.buckets id).Sorted) (uses : List (Nat × Request)) :
    ∀ id, ((h.acts uses).store.buckets id).Sorted := by
  induction uses generalizing h with
  | nil => exact sorted
  | cons use uses ih =>
    refine ih fun other => ?_
    cases held : h.handles[use.1]? with
    | none =>
      rw [act, held]
      exact sorted other
    | some id =>
      rw [act_of_some held]
      exact sorted_after sorted id use.2 other

end Holder

/-- A range scan is a filtered full scan.  Whatever was asked through whichever handles of a store, the scan
of a scope for the keys that begin with a key yields exactly the entries of the full scan whose keys do, in
the same order. -/
theorem entriesUnder_eq_filter (past : List (Nat × Request)) (id : ScopeId) (front : Key) :
    let s := (({} : Holder).acts past).store
    s.entriesUnder id front = (s.entries id).filter fun e => e.1.startsWith front :=
  entriesUnder_eq_of_sorted (Holder.sorted_acts sorted_fresh past id) front

end Store

end Rollup
