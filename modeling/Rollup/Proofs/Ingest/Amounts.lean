import Rollup.Ingest.Cycle
import Rollup.Proofs.Ingest.Revisions

/-!
# Amounts

A field of the buckets of a scope is a function of the key (`amount`), zero where there is no
bucket.  What a stage forwards adds up to the amounts of the buckets that it revised: the old ones
are queued for retraction and the new ones for addition.
-/

namespace Rollup.Ingest

open Document

/-- The keys of a scope. -/
def domain (b : Buckets) : Finset Key := (b.toList.map Prod.fst).toFinset

theorem mem_domain {b : Buckets} {key : Key} : key ∈ domain b ↔ ∃ d, b.get? key = some d := by
  rw [domain, List.mem_toFinset]
  show key ∈ b.entries.map Prod.fst ↔ ∃ d, SortedMap.lookup key b.entries = some d
  induction b.entries with
  | nil => simp [SortedMap.lookup]
  | cons e rest ih =>
    obtain ⟨k, x⟩ := e
    rw [List.map_cons, List.mem_cons, ih, SortedMap.lookup]
    by_cases same : key = k
    · subst same
      simp
    · simp [same]

theorem get?_eq_none {b : Buckets} {key : Key} (missing : key ∉ domain b) : b.get? key = none := by
  cases found : b.get? key with
  | none => rfl
  | some d => exact absurd (mem_domain.2 ⟨d, found⟩) missing

/-- A field of the bucket under a key. -/
def amount (b : Buckets) (field : String) (key : Key) : Int := (b.get? key).elim 0 (whole · field)

theorem amount_of_get? {b : Buckets} {key : Key} {d : Document} (found : b.get? key = some d)
    (field : String) : amount b field key = whole d field := by
  rw [amount, found, Option.elim_some]

theorem amount_of_not_mem {b : Buckets} {key : Key} (missing : key ∉ domain b) (field : String) :
    amount b field key = 0 := by
  rw [amount, get?_eq_none missing, Option.elim_none]

/-- The magnitudes of a field, added up over a scope. -/
def volume (b : Buckets) (field : String) : Nat := ∑ key ∈ domain b, (amount b field key).natAbs

theorem natAbs_amount_le (b : Buckets) (field : String) (key : Key) :
    (amount b field key).natAbs ≤ volume b field := by
  by_cases mem : key ∈ domain b
  · exact Finset.single_le_sum (f := fun k => (amount b field k).natAbs) (fun _ _ => Nat.zero_le _) mem
  · rw [amount_of_not_mem mem]
    exact Nat.zero_le _

/-- What a field adds up to over some keys is at most its volume. -/
theorem sum_natAbs_amount_le (b : Buckets) (field : String) (keys : Finset Key) :
    ∑ key ∈ keys, (amount b field key).natAbs ≤ volume b field := by
  refine Finset.sum_le_sum_of_ne_zero fun key _ filled => ?_
  by_contra missing
  rw [amount_of_not_mem missing] at filled
  exact filled rfl

/-! ## Inflow -/

section Inflow

variable {M : Type} [AddCommMonoid M] {route : Key → Option Key} {keys : Finset Key} {f g : Key → M}
  {key' : Key}

/-- The values of the keys that go to a key, added up. -/
def inflow (route : Key → Option Key) (keys : Finset Key) (f : Key → M) (key' : Key) : M :=
  ∑ key ∈ keys, if route key = some key' then f key else 0

theorem inflow_congr (same : ∀ key ∈ keys, f key = g key) : inflow route keys f key' = inflow route keys g key' := by
  refine Finset.sum_congr rfl fun key mem => ?_
  rw [same key mem]

/-- Keys without a value may be left out. -/
theorem inflow_subset {fewer : Finset Key} (subset : fewer ⊆ keys) (blank : ∀ key, key ∉ fewer → f key = 0) :
    inflow route fewer f key' = inflow route keys f key' := by
  refine Finset.sum_subset subset fun key _ missing => ?_
  rw [blank key missing, ite_self]

theorem inflow_restrict {fewer : Finset Key} (subset : fewer ⊆ keys) :
    inflow route fewer f key' = inflow route keys (fun key => if key ∈ fewer then f key else 0) key' := by
  rw [← inflow_subset subset fun key missing => if_neg missing]
  exact inflow_congr fun key mem => (if_pos mem).symm

theorem inflow_add : inflow route keys (fun key => f key + g key) key' =
    inflow route keys f key' + inflow route keys g key' := by
  rw [inflow, inflow, inflow, ← Finset.sum_add_distrib]
  refine Finset.sum_congr rfl fun key _ => ?_
  split
  · rfl
  · exact (add_zero _).symm

theorem inflow_sub {f g : Key → Int} : inflow route keys (fun key => f key - g key) key' =
    inflow route keys f key' - inflow route keys g key' := by
  rw [inflow, inflow, inflow, ← Finset.sum_sub_distrib]
  refine Finset.sum_congr rfl fun key _ => ?_
  split
  · rfl
  · exact (sub_zero _).symm

theorem inflow_le {f : Key → Nat} : inflow route keys f key' ≤ ∑ key ∈ keys, f key := by
  refine Finset.sum_le_sum fun key _ => ?_
  split
  · exact Nat.le_refl _
  · exact Nat.zero_le _

theorem natAbs_inflow_le (f : Key → Int) :
    (inflow route keys f key').natAbs ≤ inflow route keys (fun key => (f key).natAbs) key' := by
  refine (Int.natAbs_sum_le keys _).trans (Finset.sum_le_sum fun key _ => ?_)
  split <;> simp

/-- A key goes to one key at most, so inflows together do not exceed what there is. -/
theorem sum_natAbs_inflow_le (route : Key → Option Key) (keys keys' : Finset Key) (f : Key → Int) :
    ∑ key' ∈ keys', (inflow route keys f key').natAbs ≤ ∑ key ∈ keys, (f key).natAbs := by
  calc ∑ key' ∈ keys', (inflow route keys f key').natAbs
      ≤ ∑ key' ∈ keys', ∑ key ∈ keys, (if route key = some key' then (f key).natAbs else 0) :=
        Finset.sum_le_sum fun key' _ => natAbs_inflow_le f
    _ = ∑ key ∈ keys, ∑ key' ∈ keys', (if route key = some key' then (f key).natAbs else 0) :=
        Finset.sum_comm
    _ ≤ ∑ key ∈ keys, (f key).natAbs := by
        refine Finset.sum_le_sum fun key _ => ?_
        cases routed : route key with
        | none => simp
        | some target =>
          simp only [Option.some.injEq, Finset.sum_ite_eq]
          split <;> simp

theorem volume_le_of_inflow {b : Buckets} {field : String} {f : Key → Int} {total : Nat}
    (amounts : ∀ key', amount b field key' = inflow route keys f key')
    (le : ∑ key ∈ keys, (f key).natAbs ≤ total) : volume b field ≤ total := by
  rw [volume, Finset.sum_congr rfl fun key' _ => by rw [amounts key']]
  exact (sum_natAbs_inflow_le route keys (domain b) f).trans le

end Inflow

/-! ## Revisions -/

/-- The keys of revised buckets. -/
def revisedKeys (rs : List Revision) : Finset Key := (rs.map Revision.key).toFinset

theorem mem_revisedKeys {rs : List Revision} {key : Key} :
    key ∈ revisedKeys rs ↔ ∃ r ∈ rs, r.key = key := by
  rw [revisedKeys, List.mem_toFinset, List.mem_map]

namespace Revised

variable {b b' : Buckets} {rs : List Revision} (revised : Revised b rs b')

include revised

theorem get?_of_not_revised {key : Key} (other : key ∉ revisedKeys rs) : b'.get? key = b.get? key :=
  revised.get?_of_not_mem fun mem => other (List.mem_toFinset.2 mem)

theorem amount_of_not_revised {key : Key} (other : key ∉ revisedKeys rs) (field : String) :
    amount b' field key = amount b field key := by
  rw [amount, amount, revised.get?_of_not_revised other]

theorem picked_new : ∀ r ∈ rs, some r.new = b'.get? r.key := fun _ mem => (revised.get?_of_mem mem).symm

theorem domain_eq : domain b' = domain b ∪ revisedKeys rs := by
  ext key
  rw [Finset.mem_union]
  by_cases mem : key ∈ revisedKeys rs
  · obtain ⟨r, member, rfl⟩ := mem_revisedKeys.1 mem
    exact ⟨fun _ => .inr mem, fun _ => mem_domain.2 ⟨_, revised.get?_of_mem member⟩⟩
  · rw [mem_domain, mem_domain, revised.get?_of_not_revised mem]
    exact ⟨.inl, fun found => found.resolve_right mem⟩

/-- Where only stored buckets were revised, no bucket is new. -/
theorem domain_eq_of_stored (stored : ∀ r ∈ rs, r.old.isSome) : domain b' = domain b := by
  rw [revised.domain_eq, Finset.union_eq_left]
  intro key mem
  obtain ⟨r, member, rfl⟩ := mem_revisedKeys.1 mem
  have isSome := stored r member
  rw [revised.old r member] at isSome
  exact mem_domain.2 (Option.isSome_iff_exists.1 isSome)

end Revised

/-! ## What is forwarded -/

/-- The entries that documents of revised buckets make at the stage behind. -/
def forwarded (next : Stage) (pick : Revision → Option Document) (rs : List Revision) :
    List (Key × Document) :=
  rs.filterMap fun r => (pick r).bind fun d => next.map? (Stage.tagged r.key d)

/-- What revised buckets queue for retraction at the stage behind. -/
def retractionsOf (next : Stage) (rs : List Revision) : List (Key × Document) :=
  forwarded next Revision.old rs

/-- What revised buckets queue for addition at the stage behind. -/
def additionsOf (next : Stage) (rs : List Revision) : List (Key × Document) :=
  forwarded next (fun r => some r.new) rs

theorem docsOf_cons (e : Key × Document) (entries : List (Key × Document)) (key : Key) :
    docsOf (e :: entries) key = if e.1 = key then e.2 :: docsOf entries key else docsOf entries key := by
  by_cases same : e.1 = key <;> simp [docsOf, same]

theorem sum_magnitude_docsOf_le (entries : List (Key × Document)) (field : String) (keys : Finset Key) :
    ∑ key ∈ keys, magnitude (docsOf entries key) field ≤ magnitude (entries.map Prod.snd) field := by
  induction entries with
  | nil => exact (Finset.sum_const_zero (s := keys)).le
  | cons e rest ih =>
    have split : ∀ key, magnitude (docsOf (e :: rest) key) field =
        (if e.1 = key then (whole e.2 field).natAbs else 0) + magnitude (docsOf rest key) field := by
      intro key
      rw [docsOf_cons]
      split
      · rfl
      · exact (Nat.zero_add _).symm
    rw [Finset.sum_congr rfl fun key _ => split key, Finset.sum_add_distrib, Finset.sum_ite_eq]
    have own : (if e.1 ∈ keys then (whole e.2 field).natAbs else 0) ≤ (whole e.2 field).natAbs := by
      split
      · exact Nat.le_refl _
      · exact Nat.zero_le _
    exact Nat.add_le_add own ih

theorem magnitude_docsOf_le (entries : List (Key × Document)) (field : String) (key : Key) :
    magnitude (docsOf entries key) field ≤ magnitude (entries.map Prod.snd) field := by
  simpa using sum_magnitude_docsOf_le entries field {key}

/-- What is forwarded to a key adds up to the amounts of the buckets that go there. -/
theorem sum_forwarded {M : Type} [AddCommMonoid M] {next : Stage} {route : Key → Option Key}
    {pick : Revision → Option Document} {rs : List Revision} {b : Buckets} {g : Document → M}
    (nodup : (rs.map Revision.key).Nodup) (picked : ∀ r ∈ rs, pick r = b.get? r.key)
    (mapped : ∀ key d, b.get? key = some d → next.map? (Stage.tagged key d) =
      (route key).map fun key' => (key', Stage.untagged key d))
    (same : ∀ key d, g (Stage.untagged key d) = g d) (key' : Key) :
    ((docsOf (forwarded next pick rs) key').map g).sum =
      inflow route (revisedKeys rs) (fun key => (b.get? key).elim 0 g) key' := by
  rw [inflow, revisedKeys, List.sum_toFinset _ nodup, List.map_map]
  clear nodup
  induction rs with
  | nil => rfl
  | cons r rest ih =>
    rw [List.map_cons, List.sum_cons, ← ih fun s mem => picked s (List.mem_cons_of_mem _ mem)]
    rw [forwarded, List.filterMap_cons, picked r List.mem_cons_self, Function.comp_apply]
    cases found : b.get? r.key with
    | none => simp [forwarded]
    | some d =>
      rw [Option.bind_some, mapped r.key d found]
      cases route r.key with
      | none => simp [forwarded]
      | some target =>
        rw [Option.map_some, docsOf_cons]
        by_cases here : target = key' <;> simp [here, same, forwarded]

/-- What is forwarded is part of what the buckets hold. -/
theorem magnitude_forwarded_le {next : Stage} {route : Key → Option Key} {pick : Revision → Option Document}
    {rs : List Revision} {b : Buckets} {field : String} (nodup : (rs.map Revision.key).Nodup)
    (picked : ∀ r ∈ rs, pick r = b.get? r.key)
    (mapped : ∀ key d, b.get? key = some d → next.map? (Stage.tagged key d) =
      (route key).map fun key' => (key', Stage.untagged key d))
    (same : ∀ key d, whole (Stage.untagged key d) field = whole d field) :
    magnitude ((forwarded next pick rs).map Prod.snd) field ≤ volume b field := by
  suffices magnitude ((forwarded next pick rs).map Prod.snd) field ≤
      ((rs.map Revision.key).map fun key => (amount b field key).natAbs).sum by
    refine this.trans (le_trans (le_of_eq ?_) (sum_natAbs_amount_le b field (revisedKeys rs)))
    rw [revisedKeys, List.sum_toFinset _ nodup]
  clear nodup
  induction rs with
  | nil => exact Nat.le_refl 0
  | cons r rest ih =>
    have later := ih fun s mem => picked s (List.mem_cons_of_mem _ mem)
    rw [forwarded, List.filterMap_cons, picked r List.mem_cons_self, List.map_cons, List.map_cons, List.sum_cons]
    cases found : b.get? r.key with
    | none => exact later.trans (Nat.le_add_left _ _)
    | some d =>
      rw [Option.bind_some, mapped r.key d found, amount_of_get? found]
      cases route r.key with
      | none => exact later.trans (Nat.le_add_left _ _)
      | some target =>
        rw [Option.map_some, List.map_cons, magnitude, List.map_cons, List.sum_cons, same]
        exact Nat.add_le_add_left later _

end Rollup.Ingest
