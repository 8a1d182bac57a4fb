import Rollup.Proofs.Store.Handles

/-!
# Appended entries

Every append returns a marker greater than all that were returned before, in whichever scope, and writes the
document under it; a scan for what was appended yields these entries in ascending order, each once, until they
are deleted (`appended_fresh_and_complete`).  Appended entries stand under keys that may be written like all
others, and such writes are not told from appends: a document that was written under a marker before it is
returned is lost when it is, and one that is written later is yielded in place of what was appended, also where
that has been deleted.

What one request does to one entry is said once (`Holder.get?_act`), and what a run does follows by induction.
-/

namespace Rollup

/-! ## Keys of one whole number -/

namespace Key

variable {m n : Int64}

theorem numbered_injective (same : Key.numbered m = .numbered n) : m = n := by
  simpa [Key.numbered] using same

theorem compare_numbered (less : m < n) : compare (Key.numbered m) (.numbered n) = .lt := by
  have parts : compare (KeyPart.int m) (.int n) = .lt := by
    rw [KeyPart.compare_def, KeyPart.compare]
    exact Std.compare_eq_lt.2 less
  rw [Key.compare_def, Key.numbered, Key.numbered, List.compare_eq_compareLex]
  simp [List.compareLex, parts]

end Key

namespace Store

variable {s s' : Store} {id x : ScopeId} {key : Key} {m marker : Int64} {d : Document}

/-! ## What a request leaves under a key -/

theorem append?_of_left (left : s.nextMarker < 0x8000000000000000) (id : ScopeId) (d : Document) :
    ∃ s', s.append? id d = some (Int64.ofNat s.nextMarker, s') := by
  rw [append?]
  exact ⟨_, if_pos left⟩

theorem get?_append? (made : s.append? id d = some (m, s')) (here : id < s.scopes.length) (x : ScopeId) (key : Key) :
    s'.get? x key = if x = id ∧ key = .numbered m then some d else s.get? x key := by
  obtain ⟨-, left, -, -⟩ := append?_kept made
  obtain ⟨s₁, made', -, -, buckets, others⟩ := append?_eq left here d
  obtain ⟨rfl, rfl⟩ := Prod.mk.inj (Option.some.inj (made.symm.trans made'))
  rw [get?_eq, get?_eq]
  by_cases same : x = id
  · rw [same, buckets, SortedMap.get?_insert]
    simp only [true_and]
  · rw [others x same, if_neg fun both => same both.1]

theorem get?_set (here : id < s.scopes.length) (key : Key) (doc : Option Document) (x : ScopeId) (key' : Key) :
    (s.set id key doc).get? x key' = if x = id ∧ key' = key then doc else s.get? x key' := by
  rw [get?_eq, get?_eq]
  by_cases same : x = id
  · subst same
    cases doc with
    | some d =>
      rw [s.buckets_set_self here, SortedMap.get?_insert]
      simp only [true_and]
    | none =>
      rw [s.buckets_erase_self here, SortedMap.get?_erase]
      simp only [true_and]
  · rw [s.buckets_set_of_ne same, if_neg fun both => same both.1]

/-! ## Scans for appended entries -/

theorem mem_appendedSince :
    (key, d) ∈ s.appendedSince id marker ↔
      ∃ m, key = .numbered m ∧ marker < m ∧ m ∈ (s.scope id).appended ∧ s.get? id key = some d := by
  simp only [appendedSince, List.mem_filterMap, List.mem_filter, decide_eq_true_eq, Option.map_eq_some_iff,
    Prod.mk.injEq]
  constructor
  · rintro ⟨m, ⟨listed, after⟩, _, found, rfl, rfl⟩
    exact ⟨m, rfl, after, listed, found⟩
  · rintro ⟨m, rfl, after, listed, found⟩
    exact ⟨m, ⟨listed, after⟩, d, found, rfl, rfl⟩

theorem ascending_appendedSince (ascending : (s.scope id).appended.Pairwise (· < ·)) (marker : Int64) :
    (s.appendedSince id marker).Pairwise fun a b => compare a.1 b.1 = .lt := by
  rw [appendedSince, List.pairwise_filterMap]
  refine (ascending.filter _).imp ?_
  intro m n less a made b made'
  obtain ⟨d, -, rfl⟩ := Option.map_eq_some_iff.1 made
  obtain ⟨d', -, rfl⟩ := Option.map_eq_some_iff.1 made'
  exact Key.compare_numbered less

namespace Holder

/-! ## What a use of a handle does -/

/-- The marker that a use of a handle returns. -/
def returned? (h : Holder) : Nat × Request → Option Int64
  | (i, .appends doc) => h.handles[i]?.bind fun id => (h.store.append? id doc).map Prod.fst
  | _ => none

/-- The markers that a run returns. -/
def returned : Holder → List (Nat × Request) → List Int64
  | _, [] => []
  | h, use :: uses => (h.returned? use).toList ++ (h.act use).returned uses

/-- A document is appended to a scope, and the marker is returned. -/
structure Appends (h : Holder) (id : ScopeId) (m : Int64) (d : Document) (use : Nat × Request) : Prop where
  held : h.handles[use.1]? = some id
  request : use.2 = .appends d
  returned : h.returned? use = some m

/-- A document is written under a key of a scope, other than by an append. -/
def Writes (h : Holder) (id : ScopeId) (key : Key) (use : Nat × Request) : Prop :=
  h.handles[use.1]? = some id ∧ ∃ d, use.2 = .sets key (some d)

/-- The entry under a key is deleted, or its scope is erased. -/
def Drops (h : Holder) (id : ScopeId) (key : Key) (use : Nat × Request) : Prop :=
  h.handles[use.1]? = some id ∧ use.2 = .sets key none ∨ h.Deletes id use

variable {h : Holder} {use : Nat × Request}

theorem store_act {i : Nat} (held : h.handles[i]? = some id) (r : Request) :
    (h.act (i, r)).store = h.store.after id r := congrArg Holder.store (act_of_some held)

theorem act_of_none {i : Nat} (held : h.handles[i]? = none) (r : Request) : h.act (i, r) = h := by
  rw [act, held]

theorem returned?_appends {i : Nat} (held : h.handles[i]? = some id) (d : Document) :
    h.returned? (i, .appends d) = (h.store.append? id d).map Prod.fst := by
  rw [returned?, held, Option.bind_some]

theorem appends_of_append? {i : Nat} {s' : Store} (held : h.handles[i]? = some id)
    (made : h.store.append? id d = some (m, s')) : h.Appends id m d (i, .appends d) :=
  ⟨held, rfl, by rw [returned?_appends held, made, Option.map_some]⟩

theorem Appends.append?_eq (appends : h.Appends id m d use) : h.store.append? id d = some (m, (h.act use).store) := by
  obtain ⟨i, r⟩ := use
  obtain ⟨held, request, returned⟩ := appends
  cases request
  rw [returned?_appends held] at returned
  obtain ⟨⟨m, s'⟩, made, rfl⟩ := Option.map_eq_some_iff.1 returned
  rw [act_of_some held, made, after, made]
  rfl

section Unheld

variable {i : Nat} (unheld : h.handles[i]? = none) (r : Request)

include unheld

theorem not_deletes_of_none : ¬ h.Deletes x (i, r) := by
  rintro ⟨above, name, held, -⟩
  cases held.symm.trans unheld

theorem not_drops_of_none : ¬ h.Drops x key (i, r) := by
  rintro (⟨held, -⟩ | deletes)
  · cases held.symm.trans unheld
  · exact not_deletes_of_none unheld r deletes

end Unheld

section Held

variable {i : Nat} (held : h.handles[i]? = some id) (r : Request)

include held

theorem deletes_iff : h.Deletes x (i, r) ↔ ∃ name, r = .deletes name ∧ h.store.Below id name x := by
  constructor
  · rintro ⟨above, name, held', deletes, below⟩
    obtain rfl := Option.some.inj (held.symm.trans held')
    exact ⟨name, deletes, below⟩
  · rintro ⟨name, deletes, below⟩
    exact ⟨id, name, held, deletes, below⟩

theorem drops_iff : h.Drops x key (i, r) ↔
    id = x ∧ r = .sets key none ∨ ∃ name, r = .deletes name ∧ h.store.Below id name x := by
  simp only [Drops, deletes_iff held, held, Option.some.injEq]

end Held

/-- What a request through a handle does to one entry: it writes it, drops it or leaves it. -/
theorem get?_act (sound : h.Sound) (use : Nat × Request) (x : ScopeId) (key : Key) :
    (h.Writes x key use ∨ ∃ m d, key = .numbered m ∧ h.Appends x m d use ∧ (h.act use).store.get? x key = some d) ∨
      h.Drops x key use ∧ (h.act use).store.get? x key = none ∨
      ¬ h.Drops x key use ∧ (h.act use).store.get? x key = h.store.get? x key := by
  obtain ⟨i, r⟩ := use
  cases held : h.handles[i]? with
  | none => exact .inr (.inr ⟨not_drops_of_none held r, by rw [act_of_none held]⟩)
  | some id =>
    have here := sound.held id (List.mem_of_getElem? held)
    rw [store_act held]
    cases r with
    | opens name =>
      refine .inr (.inr ⟨by simp [drops_iff held], ?_⟩)
      rw [after, get?_eq, get?_eq, buckets_openChild]
    | sets key' doc =>
      rw [after, get?_set here]
      by_cases own : x = id ∧ key = key'
      · obtain ⟨rfl, rfl⟩ := own
        rw [if_pos ⟨rfl, rfl⟩]
        cases doc with
        | some d => exact .inl (.inl ⟨held, d, rfl⟩)
        | none => exact .inr (.inl ⟨.inl ⟨held, rfl⟩, rfl⟩)
      · rw [if_neg own]
        refine .inr (.inr ⟨?_, rfl⟩)
        rw [drops_iff held]
        rintro (⟨rfl, ⟨⟩⟩ | ⟨name, ⟨⟩, -⟩)
        exact own ⟨rfl, rfl⟩
    | appends doc =>
      have kept : ¬ h.Drops x key (i, .appends doc) := by simp [drops_iff held]
      rw [after]
      cases made : h.store.append? id doc with
      | none => exact .inr (.inr ⟨kept, rfl⟩)
      | some pair =>
        rw [Option.map_some, Option.getD_some, get?_append? made here]
        by_cases own : x = id ∧ key = .numbered pair.1
        · obtain ⟨rfl, rfl⟩ := own
          rw [if_pos ⟨rfl, rfl⟩]
          exact .inl (.inr ⟨pair.1, doc, rfl, appends_of_append? held made, rfl⟩)
        · rw [if_neg own]
          exact .inr (.inr ⟨kept, rfl⟩)
    | deletes name =>
      have drops : h.Drops x key (i, .deletes name) ↔ h.store.Below id name x := by simp [drops_iff held]
      rw [after, drops]
      by_cases below : h.store.Below id name x
      · exact .inr (.inl ⟨below, (readsEmpty_of_below sound.leveled below).1.get? key⟩)
      · refine .inr (.inr ⟨below, ?_⟩)
        rw [get?_eq, get?_eq, buckets, scope_deleteChild below]
        rfl

/-- What a request through a handle does to the markers that a scope has: it adds one, drops all or leaves them. -/
theorem appended_act (sound : h.Sound) (use : Nat × Request) (x : ScopeId) :
    (∃ m d, h.Appends x m d use ∧ ¬ h.Deletes x use ∧
      ((h.act use).store.scope x).appended = (h.store.scope x).appended ++ [m]) ∨
    (∀ m d, ¬ h.Appends x m d use) ∧ (h.Deletes x use ∧ ((h.act use).store.scope x).appended = [] ∨
      ¬ h.Deletes x use ∧ ((h.act use).store.scope x).appended = (h.store.scope x).appended) := by
  by_cases appends : ∃ m d, h.Appends x m d use
  · obtain ⟨m, d, appends⟩ := appends
    have here := sound.held x (List.mem_of_getElem? appends.held)
    refine .inl ⟨m, d, appends, ?_, (appended_append? appends.append?_eq here).1⟩
    rintro ⟨above, name, -, deletes, -⟩
    cases appends.request.symm.trans deletes
  · refine .inr ⟨fun m d own => appends ⟨m, d, own⟩, ?_⟩
    obtain ⟨i, r⟩ := use
    cases held : h.handles[i]? with
    | none => exact .inr ⟨not_deletes_of_none held r, by rw [act_of_none held]⟩
    | some id =>
      rw [store_act held]
      cases r with
      | opens name => exact .inr ⟨by simp [deletes_iff held], (h.store.widened_openChild id name).appended_eq x⟩
      | sets key doc => exact .inr ⟨by simp [deletes_iff held], h.store.appended_set id key doc x⟩
      | appends doc =>
        refine .inr ⟨by simp [deletes_iff held], ?_⟩
        rw [after]
        cases made : h.store.append? id doc with
        | none => rfl
        | some pair =>
          have other : x ≠ id := by
            rintro rfl
            exact appends ⟨pair.1, doc, appends_of_append? held made⟩
          have kept := (appended_append? made (sound.held id (List.mem_of_getElem? held))).2 x other
          rw [Option.map_some, Option.getD_some]
          exact kept
      | deletes name =>
        have deletes : h.Deletes x (i, .deletes name) ↔ h.store.Below id name x := by simp [deletes_iff held]
        rw [after, deletes]
        by_cases below : h.store.Below id name x
        · exact .inl ⟨below, congrArg Scope.appended (scope_of_below sound.leveled below)⟩
        · exact .inr ⟨below, congrArg Scope.appended (scope_deleteChild below)⟩

theorem mem_appended_act (sound : h.Sound) :
    m ∈ ((h.act use).store.scope x).appended ↔
      (m ∈ (h.store.scope x).appended ∧ ¬ h.Deletes x use) ∨ ∃ d, h.Appends x m d use := by
  rcases appended_act sound use x with ⟨n, d, appends, kept, grown⟩ | ⟨unappended, ⟨deletes, gone⟩ | ⟨kept, same⟩⟩
  · have own : (∃ d, h.Appends x m d use) ↔ m = n := by
      constructor
      · rintro ⟨d', appends'⟩
        exact Option.some.inj (appends'.returned.symm.trans appends.returned)
      · rintro rfl
        exact ⟨d, appends⟩
    rw [grown, List.mem_append, List.mem_singleton, own, and_iff_left kept]
  · simp [gone, deletes, unappended]
  · simp [same, kept, unappended]

theorem nextMarker_act (h : Holder) (use : Nat × Request) :
    (h.act use).store.nextMarker = h.store.nextMarker + (h.returned? use).toList.length ∧
      ∀ m, h.returned? use = some m → m.toInt = h.store.nextMarker := by
  obtain ⟨i, r⟩ := use
  cases held : h.handles[i]? with
  | none =>
    have none : h.returned? (i, r) = none := by cases r <;> simp [returned?, held]
    rw [act_of_none held, none]
    exact ⟨rfl, by rintro _ ⟨⟩⟩
  | some id =>
    rw [store_act held]
    cases r with
    | opens name => exact ⟨h.store.nextMarker_openChild id name, by rintro _ ⟨⟩⟩
    | sets key doc => exact ⟨(h.store.sameTree_set id key doc).marker, by rintro _ ⟨⟩⟩
    | deletes name => exact ⟨h.store.nextMarker_deleteChild id name, by rintro _ ⟨⟩⟩
    | appends doc =>
      rw [returned?_appends held, after]
      cases made : h.store.append? id doc with
      | none => exact ⟨rfl, by rintro _ ⟨⟩⟩
      | some pair =>
        obtain ⟨-, -, value, next⟩ := append?_kept made
        refine ⟨next, fun m own => ?_⟩
        rw [← Option.some.inj own]
        exact value

/-! ## What a run does -/

theorem acts_cons (h : Holder) (use : Nat × Request) (uses : List (Nat × Request)) :
    h.acts (use :: uses) = (h.act use).acts uses := rfl

theorem Each.mono {may may' : Holder → Nat × Request → Prop} (weaker : ∀ h use, may h use → may' h use) {h : Holder}
    {uses : List (Nat × Request)} (each : Each may h uses) : Each may' h uses := by
  induction uses generalizing h with
  | nil => trivial
  | cons use uses ih => exact ⟨weaker h use each.1, ih each.2⟩

theorem nextMarker_le_acts (h : Holder) (uses : List (Nat × Request)) :
    h.store.nextMarker ≤ (h.acts uses).store.nextMarker := by
  induction uses generalizing h with
  | nil => exact Nat.le_refl _
  | cons use uses ih =>
    refine Nat.le_trans ?_ (ih (h.act use))
    rw [(nextMarker_act h use).1]
    exact Nat.le_add_right _ _

theorem Appends.lt_nextMarker (appends : h.Appends id m d use) : m.toInt < (h.act use).store.nextMarker := by
  obtain ⟨next, value⟩ := nextMarker_act h use
  rw [next, appends.returned, value m appends.returned]
  exact Int.lt_succ _

/-- All markers that a run returns are below the next one. -/
theorem lt_of_mem_returned {uses : List (Nat × Request)} (mem : m ∈ h.returned uses) :
    m.toInt < (h.acts uses).store.nextMarker := by
  induction uses generalizing h with
  | nil => cases mem
  | cons use uses ih =>
    rcases List.mem_append.1 mem with own | later
    · obtain ⟨next, value⟩ := nextMarker_act h use
      have returned := Option.mem_toList.1 own
      have grown := nextMarker_le_acts (h.act use) uses
      rw [acts_cons, value m returned]
      rw [next, returned] at grown
      exact Int.ofNat_lt.2 grown
    · exact ih later

/-- The markers of a scope ascend, and all were handed out. -/
structure Numbered (h : Holder) : Prop where
  ascending : ∀ x, (h.store.scope x).appended.Pairwise (· < ·)
  issued : ∀ x, ∀ m ∈ (h.store.scope x).appended, m.toInt < h.store.nextMarker

theorem appended_fresh (x : ScopeId) : (({} : Holder).store.scope x).appended = [] := by
  match x with
  | 0 => rfl
  | x + 1 =>
    show (({} : Store).scope (x + 1)).appended = []
    rw [scope_of_length_le {} (Nat.succ_le_succ (Nat.zero_le x))]

theorem numbered_fresh : Numbered {} := by
  refine ⟨fun x => ?_, fun x m mem => ?_⟩
  · rw [appended_fresh]
    exact .nil
  · rw [appended_fresh] at mem
    cases mem

theorem Numbered.act (numbered : h.Numbered) (sound : h.Sound) (use : Nat × Request) : (h.act use).Numbered := by
  have grown : h.store.nextMarker ≤ (h.act use).store.nextMarker := nextMarker_le_acts h [use]
  have old (x : ScopeId) : ∀ m ∈ (h.store.scope x).appended, m.toInt < (h.act use).store.nextMarker :=
    fun m mem => Int.lt_of_lt_of_le (numbered.issued x m mem) (Int.ofNat_le.2 grown)
  refine ⟨fun x => ?_, fun x => ?_⟩ <;>
    rcases appended_act sound use x with ⟨m, d, appends, -, grown⟩ | ⟨-, ⟨-, gone⟩ | ⟨-, same⟩⟩
  · rw [grown, List.pairwise_append]
    refine ⟨numbered.ascending x, List.pairwise_singleton _ _, fun n mem n' last => ?_⟩
    rw [List.mem_singleton.1 last, Int64.lt_iff_toInt_lt, (nextMarker_act h use).2 m appends.returned]
    exact numbered.issued x n mem
  · rw [gone]
    exact .nil
  · rw [same]
    exact numbered.ascending x
  · rw [grown]
    intro n mem
    rcases List.mem_append.1 mem with before | last
    · exact old x n before
    · rw [List.mem_singleton.1 last]
      exact appends.lt_nextMarker
  · rw [gone]
    nofun
  · rw [same]
    exact old x

theorem Numbered.acts (numbered : h.Numbered) (sound : h.Sound) (uses : List (Nat × Request)) :
    (h.acts uses).Numbered := by
  induction uses generalizing h with
  | nil => exact numbered
  | cons use uses ih => exact ih (numbered.act sound use) (sound.act use)

/-- At some point of a run a document is appended to a scope under a marker, and nothing comes after it that
puts an end to that. -/
def AppendedUntil (ends : Holder → Nat × Request → Prop) (h : Holder) (uses : List (Nat × Request)) (id : ScopeId)
    (m : Int64) (d : Document) : Prop :=
  ∃ before use after, uses = before ++ use :: after ∧ (h.acts before).Appends id m d use ∧
    Each (fun h use => ¬ ends h use) ((h.acts before).act use) after

theorem appendedUntil_cons {ends : Holder → Nat × Request → Prop} {uses : List (Nat × Request)} :
    AppendedUntil ends h (use :: uses) id m d ↔
      (h.Appends id m d use ∧ Each (fun h use => ¬ ends h use) (h.act use) uses) ∨
        AppendedUntil ends (h.act use) uses id m d := by
  constructor
  · rintro ⟨before, use', after, split, appends, each⟩
    cases before with
    | nil =>
      cases split
      exact .inl ⟨appends, each⟩
    | cons first before =>
      cases split
      exact .inr ⟨before, use', after, rfl, appends, each⟩
  · rintro (⟨appends, each⟩ | ⟨before, use', after, rfl, appends, each⟩)
    · exact ⟨[], use, uses, rfl, appends, each⟩
    · exact ⟨use :: before, use', after, rfl, appends, each⟩

/-- A scope has the markers that were returned for it since it was last erased. -/
theorem mem_appended_acts (sound : h.Sound) (uses : List (Nat × Request)) :
    m ∈ ((h.acts uses).store.scope x).appended ↔
      (m ∈ (h.store.scope x).appended ∧ Each (fun h use => ¬ h.Deletes x use) h uses) ∨
        ∃ d, AppendedUntil (fun h use => h.Deletes x use) h uses x m d := by
  induction uses generalizing h with
  | nil =>
    constructor
    · exact fun mem => .inl ⟨mem, trivial⟩
    · rintro (⟨mem, -⟩ | ⟨d, before, use, after, split, -⟩)
      · exact mem
      · cases before <;> cases split
  | cons use uses ih =>
    rw [acts_cons, ih (sound.act use), mem_appended_act sound]
    simp only [appendedUntil_cons, exists_or, exists_and_right, Each]
    tauto

/-- As long as no document is written under a marker that was returned, the entry is what it was until it is
dropped. -/
theorem get?_acts_of_unwritten (sound : h.Sound) (returned : m.toInt < h.store.nextMarker)
    {uses : List (Nat × Request)} (unwritten : Each (fun h use => ¬ h.Writes x (.numbered m) use) h uses) :
    (h.acts uses).store.get? x (.numbered m) = some d ↔
      h.store.get? x (.numbered m) = some d ∧ Each (fun h use => ¬ h.Drops x (.numbered m) use) h uses := by
  induction uses generalizing h with
  | nil => exact ⟨fun found => ⟨found, trivial⟩, And.left⟩
  | cons use uses ih =>
    have grown : h.store.nextMarker ≤ (h.act use).store.nextMarker := nextMarker_le_acts h [use]
    rw [acts_cons, ih (sound.act use) (Int.lt_of_lt_of_le returned (Int.ofNat_le.2 grown)) unwritten.2]
    rcases get?_act sound use x (.numbered m) with (writes | ⟨n, _, same, appends, -⟩) | ⟨drops, gone⟩ | ⟨kept, same⟩
    · exact (unwritten.1 writes).elim
    · -- The marker that is returned now is the next one, and that is greater.
      rw [← Key.numbered_injective same] at appends
      rw [(nextMarker_act h use).2 m appends.returned] at returned
      exact (Int.lt_irrefl _ returned).elim
    · rw [gone]
      constructor
      · rintro ⟨⟨⟩, -⟩
      · exact fun both => (both.2.1 drops).elim
    · rw [same]
      exact ⟨fun both => ⟨both.1, kept, both.2⟩, fun both => ⟨both.1, both.2.2⟩⟩

/-- Nothing stands under a marker that is not returned yet, unless it was written there. -/
theorem get?_acts_of_unreturned (sound : h.Sound) (nothing : h.store.get? x (.numbered m) = none)
    {uses : List (Nat × Request)} (later : (h.acts uses).store.nextMarker ≤ m.toInt)
    (unwritten : Each (fun h use => ¬ h.Writes x (.numbered m) use) h uses) :
    (h.acts uses).store.get? x (.numbered m) = none := by
  induction uses generalizing h with
  | nil => exact nothing
  | cons use uses ih =>
    refine ih (sound.act use) ?_ later unwritten.2
    rcases get?_act sound use x (.numbered m) with (writes | ⟨n, _, same, appends, -⟩) | ⟨-, gone⟩ | ⟨-, same⟩
    · exact (unwritten.1 writes).elim
    · rw [← Key.numbered_injective same] at appends
      have before := appends.lt_nextMarker
      have grown := Int.ofNat_le.2 (nextMarker_le_acts (h.act use) uses)
      exact (Int.lt_irrefl _ (Int.lt_of_lt_of_le before (Int.le_trans grown later))).elim
    · exact gone
    · rw [same, nothing]

/-- No document is written under a marker after it was returned for a scope. -/
def Undisturbed (h : Holder) (uses : List (Nat × Request)) (id : ScopeId) (m : Int64) : Prop :=
  ∀ before use after d, uses = before ++ use :: after → (h.acts before).Appends id m d use →
    Each (fun h use => ¬ h.Writes id (.numbered m) use) ((h.acts before).act use) after

theorem Appends.get?_act (sound : h.Sound) (appends : h.Appends id m d use) :
    (h.act use).store.get? id (.numbered m) = some d := by
  rw [get?_append? appends.append?_eq (sound.held id (List.mem_of_getElem? appends.held)), if_pos ⟨rfl, rfl⟩]

/-- What stands under a marker that nothing was written under since it was returned. -/
theorem get?_acts_of_appends {before after : List (Nat × Request)} {d' : Document} (sound : (h.acts before).Sound)
    (appends : (h.acts before).Appends id m d use)
    (unwritten : Each (fun h use => ¬ h.Writes id (.numbered m) use) ((h.acts before).act use) after) :
    (h.acts (before ++ use :: after)).store.get? id (.numbered m) = some d' ↔
      d = d' ∧ Each (fun h use => ¬ h.Drops id (.numbered m) use) ((h.acts before).act use) after := by
  have run : h.acts (before ++ use :: after) = ((h.acts before).act use).acts after := by
    rw [acts, acts, List.foldl_append, List.foldl_cons]
    rfl
  rw [run, get?_acts_of_unwritten (sound.act use) appends.lt_nextMarker unwritten, appends.get?_act sound,
    Option.some.injEq]

theorem each_of_forall {may : Holder → Nat × Request → Prop} {uses : List (Nat × Request)}
    (all : ∀ use ∈ uses, ∀ h, may h use) (h : Holder) : Each may h uses := by
  induction uses generalizing h with
  | nil => trivial
  | cons use uses ih =>
    exact ⟨all use List.mem_cons_self h, ih (fun use' mem => all use' (List.mem_cons_of_mem use mem)) (h.act use)⟩

/-- Where documents are only appended, all entries are left alone. -/
theorem undisturbed_of_unwritten {uses : List (Nat × Request)}
    (unwritten : ∀ use ∈ uses, ∀ key d, use.2 ≠ .sets key (some d)) : Undisturbed h uses id m := by
  rintro before use after d rfl -
  refine each_of_forall (fun use' mem h' => ?_) _
  rintro ⟨-, d', writes⟩
  exact unwritten use' (List.mem_append_right _ (List.mem_cons_of_mem use mem)) _ d' writes

/-- What a scan yields under a marker of which the entry was left alone is what was appended and not dropped. -/
theorem mem_appendedSince_of_undisturbed (sound : h.Sound) {uses : List (Nat × Request)}
    (new : (h.store.scope id).appended = []) (undisturbed : h.Undisturbed uses id m) :
    (.numbered m, d) ∈ (h.acts uses).store.appendedSince id marker ↔
      marker < m ∧ AppendedUntil (fun h use => h.Drops id (.numbered m) use) h uses id m d := by
  rw [mem_appendedSince]
  constructor
  · rintro ⟨n, same, behind, listed, found⟩
    obtain rfl := Key.numbered_injective same
    rw [mem_appended_acts sound, new] at listed
    obtain ⟨⟨⟩, -⟩ | ⟨d', before, use, after, rfl, appends, -⟩ := listed
    have unwritten := undisturbed before use after d' rfl appends
    obtain ⟨rfl, undropped⟩ := (get?_acts_of_appends (sound.acts before) appends unwritten).1 found
    exact ⟨behind, before, use, after, rfl, appends, undropped⟩
  · rintro ⟨behind, before, use, after, rfl, appends, undropped⟩
    have unerased := undropped.mono fun h use kept (deletes : h.Deletes id use) => kept (.inr deletes)
    have unwritten := undisturbed before use after d rfl appends
    exact ⟨m, rfl, behind, (mem_appended_acts sound _).2 (.inr ⟨d, before, use, after, rfl, appends, unerased⟩),
      (get?_acts_of_appends (sound.acts before) appends unwritten).2 ⟨rfl, undropped⟩⟩

end Holder

open Holder in
/-- Appending is fresh and complete, as far as the keys of appended entries are not written otherwise.  Whatever
was asked through whichever handles of a store, while there are markers left

* an append returns a marker greater than all that were returned before, in whichever scope, writes the document
  under it, and changes nothing else: no entry that was there, unless one had been written under that very marker
  before it was returned;
* a scan for what was appended after a marker yields entries in ascending order, each once.  They are what stands
  under the markers that were returned for the scope since it was last erased, and under a marker of which the
  entry has been left alone that is the document that was appended, if it was not deleted or erased since. -/
theorem appended_fresh_and_complete (past : List (Nat × Request)) :
    let t := ({} : Holder).acts past
    (∀ i id d, t.handles[i]? = some id → t.store.nextMarker < 0x8000000000000000 →
      ∃ m, t.returned? (i, .appends d) = some m ∧ (∀ m' ∈ ({} : Holder).returned past, m' < m) ∧
        (∀ x key, (t.act (i, .appends d)).store.get? x key =
          if x = id ∧ key = .numbered m then some d else t.store.get? x key) ∧
        (Each (fun h use => ¬ h.Writes id (.numbered m) use) {} past →
          ∀ x key d', t.store.get? x key = some d' → (t.act (i, .appends d)).store.get? x key = some d')) ∧
    ∀ id marker,
      ((t.store.appendedSince id marker).Pairwise fun a b => compare a.1 b.1 = .lt) ∧
      (∀ key d, (key, d) ∈ t.store.appendedSince id marker ↔ ∃ m, key = .numbered m ∧ marker < m ∧
        (∃ d', AppendedUntil (fun h use => h.Deletes id use) {} past id m d') ∧ t.store.get? id key = some d) ∧
      ∀ m, Undisturbed {} past id m → ∀ d, (.numbered m, d) ∈ t.store.appendedSince id marker ↔
        marker < m ∧ AppendedUntil (fun h use => h.Drops id (.numbered m) use) {} past id m d := by
  intro t
  have sound : t.Sound := sound_fresh.acts past
  have numbered : t.Numbered := numbered_fresh.acts sound_fresh past
  refine ⟨fun i id d held left => ?_, fun id marker => ⟨?_, fun key d => ?_, fun m undisturbed d => ?_⟩⟩
  · obtain ⟨s', made⟩ := append?_of_left left id d
    have appends : t.Appends id (Int64.ofNat t.store.nextMarker) d (i, .appends d) := appends_of_append? held made
    have value := (nextMarker_act t (i, .appends d)).2 _ appends.returned
    have written (x : ScopeId) (key : Key) :=
      get?_append? appends.append?_eq (sound.held id (List.mem_of_getElem? held)) x key
    refine ⟨_, appends.returned, fun m' mem => ?_, written, fun unwritten x key d' found => ?_⟩
    · rw [Int64.lt_iff_toInt_lt, value]
      exact lt_of_mem_returned mem
    · rw [written, if_neg, found]
      rintro ⟨rfl, rfl⟩
      have nothing : ({} : Holder).store.get? x (.numbered (Int64.ofNat t.store.nextMarker)) = none := by
        rw [get?_eq, buckets_fresh]
        rfl
      cases (get?_acts_of_unreturned sound_fresh nothing (Int.le_of_eq value.symm) unwritten).symm.trans found
  · exact ascending_appendedSince (numbered.ascending id) marker
  · rw [mem_appendedSince]
    refine exists_congr fun m => and_congr_right fun _ => and_congr_right fun _ => and_congr_left fun _ => ?_
    rw [mem_appended_acts sound_fresh, appended_fresh]
    exact or_iff_right fun both => List.not_mem_nil both.1
  · exact mem_appendedSince_of_undisturbed sound_fresh (appended_fresh id) undisturbed

open Holder in
/-- Documents are appended to a scope and to its child, and one of them is deleted. -/
theorem appended_fresh_and_complete_deleted :
    let doc : Document := ⟨[("x", .bool true)]⟩
    let past : List (Nat × Request) := [(0, .appends doc), (0, .opens (.named "a")), (1, .appends doc),
      (0, .appends doc), (0, .sets (.numbered 0) none)]
    let t := ({} : Holder).acts past
    (∃ m, t.returned? (0, .appends doc) = some m ∧ (∀ m' ∈ [0, 1, 2], m' < m) ∧
      (t.act (0, .appends doc)).store.get? 1 (.numbered 1) = some doc) ∧
    ((t.store.appendedSince 0 (-1)).Pairwise fun a b => compare a.1 b.1 = .lt) ∧
    (.numbered 0, doc) ∉ t.store.appendedSince 0 (-1) ∧ (.numbered 2, doc) ∈ t.store.appendedSince 0 (-1) := by
  intro doc past t
  have returned : ({} : Holder).returned past = [0, 1, 2] := by decide +kernel
  have unwritten (m : Int64) : Undisturbed {} past 0 m := by
    refine undisturbed_of_unwritten fun use mem key d writes => ?_
    simp only [past, List.mem_cons, List.not_mem_nil, or_false] at mem
    rcases mem with rfl | rfl | rfl | rfl | rfl <;> cases writes
  obtain ⟨fresh, complete⟩ := appended_fresh_and_complete past
  obtain ⟨ascending, listed, left⟩ := complete 0 (-1)
  obtain ⟨m, own, greater, written, -⟩ := fresh 0 0 doc (by decide +kernel) (by decide +kernel)
  refine ⟨⟨m, own, returned ▸ greater, ?_⟩, ascending, fun mem => ?_, (left 2 (unwritten 2) doc).2 ⟨by decide, ?_⟩⟩
  · rw [written, if_neg nofun]
    rfl
  · obtain ⟨-, -, -, -, found⟩ := (listed _ doc).1 mem
    cases show none = some doc from found
  · refine ⟨past.take 3, _, [(0, .sets (.numbered 0) none)], rfl, ?_, ?_, trivial⟩
    · exact ⟨by decide +kernel, rfl, by decide +kernel⟩
    · rintro (⟨-, drops⟩ | ⟨_, _, -, ⟨⟩, -⟩)
      exact absurd (Request.sets.inj drops).1 (by decide)

open Holder in
/-- A document that was written under a marker is lost when that marker is returned, and one that is written under
it later is yielded as if it had been appended, though what was appended has been deleted. -/
theorem markers_written_otherwise :
    let doc : Document := ⟨[("x", .bool true)]⟩
    let other : Document := ⟨[("x", .bool false)]⟩
    let key := Key.numbered 0
    let early := ({} : Holder).acts [(0, .sets key (some other))]
    let past : List (Nat × Request) := [(0, .appends doc), (0, .sets key none), (0, .sets key (some other))]
    (early.store.get? 0 key = some other ∧ (early.act (0, .appends doc)).store.get? 0 key = some doc ∧ doc ≠ other) ∧
      (({} : Holder).acts past).store.appendedSince 0 (-1) = [(key, other)] ∧
      ∀ m d, ¬ AppendedUntil (fun h use => h.Drops 0 key use) {} past 0 m d := by
  intro doc other key early past
  have apart : doc ≠ other := by simp [doc, other]
  refine ⟨⟨rfl, rfl, apart⟩, rfl, ?_⟩
  rintro m d ⟨before, use, after, split, appends, undropped⟩
  have request := appends.request
  -- Of the three uses only the first is an append, and the second drops the entry.
  obtain _ | ⟨_, _ | ⟨_, _ | ⟨_, before⟩⟩⟩ := before
  · obtain ⟨rfl, rfl⟩ := List.cons.inj split
    exact undropped.1 (.inl ⟨by decide +kernel, rfl⟩)
  · obtain ⟨rfl, rfl⟩ := List.cons.inj (List.cons.inj split).2
    cases request
  · obtain ⟨rfl, rfl⟩ := List.cons.inj (List.cons.inj (List.cons.inj split).2).2
    cases request
  · have lengths := congrArg List.length split
    simp [past] at lengths

end Store

end Rollup
