import Rollup.Proofs.Ingest.Phases

/-!
# Stages in step

A chained stage is in step with the stage before it if it has a bucket for every key that buckets go
to, with the amounts of those buckets added up (`InStep`).  A commit of the stage before revises its
buckets in two phases (`Course`); when the chained stage has worked off what was forwarded, it has
gone through two phases of its own and is in step again (`Course.follow`).

In the middle of its course a chained stage holds amounts that no stage before it ever held, because
a bucket that was revised twice is retracted twice first.  They are still bounded by the volumes of
the stage before, so totals do not grow along the chain.
-/

namespace Rollup.Ingest

open Document

/-- A chained stage folds the buckets of the stage before it. -/
structure InStep (child : Stage) (route : Key → Option Key) (p c : Buckets) : Prop where
  domain : ∀ key', key' ∈ domain c ↔ ∃ key ∈ domain p, route key = some key'
  amount : ∀ field, Linear child.reduces field → ∀ key',
    amount c field key' = inflow route (Ingest.domain p) (Ingest.amount p field) key'

/-- The buckets of a stage before, between and after the phases of a commit, with what they revised.
Amounts and keys stay below a bound. -/
structure Course (verbs : List Verb) (stage : Stage) (bound : Nat) (before : Buckets)
    (retracted : List Revision) (middle : Buckets) (added : List Revision) (after : Buckets) : Prop where
  counting : Counting stage.reduces
  retract : Revised before retracted middle
  add : Revised middle added after
  stored : ∀ r ∈ retracted, r.old.isSome
  holds_before : ∀ key d, before.get? key = some d → stage.Holds verbs key d
  holds_middle : ∀ key d, middle.get? key = some d → stage.Holds verbs key d
  holds_after : ∀ key d, after.get? key = some d → stage.Holds verbs key d
  volume_before : ∀ field, Linear stage.reduces field → volume before field ≤ bound
  volume_middle : ∀ field, Linear stage.reduces field → volume middle field ≤ bound
  volume_after : ∀ field, Linear stage.reduces field → volume after field ≤ bound
  size : (domain after).card ≤ bound

/-- A unique count is zero or one in every bucket. -/
theorem volume_le_of_presence {verbs : List Verb} {stage : Stage} {b : Buckets} {source name : String}
    (holds : ∀ key d, b.get? key = some d → stage.Holds verbs key d)
    (counted : .countUniqueValues source name ∈ stage.reduces) : volume b name ≤ (domain b).card := by
  rw [volume, Finset.card_eq_sum_ones]
  refine Finset.sum_le_sum fun key mem => ?_
  obtain ⟨d, found⟩ := mem_domain.1 mem
  have presence := (holds key d found).presence source name counted
  rw [amount_of_get? found, whole_of_int presence]
  split <;> decide

namespace Course

variable {verbs : List Verb} {parent child : Stage} {bound : Nat} {before middle after : Buckets}
  {retracted added : List Revision} {route : Key → Option Key}

section Parent

variable (course : Course verbs parent bound before retracted middle added after)

include course

theorem domain_middle : domain middle = domain before :=
  course.retract.domain_eq_of_stored course.stored

theorem domain_after : domain after = domain middle ∪ revisedKeys added := course.add.domain_eq

theorem domain_middle_subset : domain middle ⊆ domain after := by
  rw [course.domain_after]
  exact Finset.subset_union_left

/-- The bound also holds of what the next stage adds up. -/
theorem volume_le (merges : Merges verbs parent child route) {field : String}
    (linear : Linear child.reduces field) :
    volume before field ≤ bound ∧ volume middle field ≤ bound ∧ volume after field ≤ bound := by
  rcases merges.linear field linear with own | ⟨source, counted⟩
  · exact ⟨course.volume_before field own, course.volume_middle field own, course.volume_after field own⟩
  · have subset := Finset.card_le_card course.domain_middle_subset
    have size := course.size
    have first := volume_le_of_presence course.holds_before counted
    have second := volume_le_of_presence course.holds_middle counted
    have third := volume_le_of_presence course.holds_after counted
    rw [← course.domain_middle] at first
    omega

theorem revisedKeys_retracted_subset : revisedKeys retracted ⊆ domain after := by
  refine Finset.Subset.trans ?_ course.domain_middle_subset
  rw [course.retract.domain_eq]
  exact Finset.subset_union_right

theorem revisedKeys_added_subset : revisedKeys added ⊆ domain after := by
  rw [course.domain_after]
  exact Finset.subset_union_right

theorem domain_before_subset : domain before ⊆ domain after := by
  rw [← course.domain_middle]
  exact course.domain_middle_subset

/-! ### What is left in the middle -/

omit course in
/-- What a bucket contributes to the next stage while retractions are worked off and additions are
not. -/
def residue (before : Buckets) (retracted : List Revision) (middle : Buckets) (added : List Revision)
    (field : String) (key : Key) : Int :=
  amount before field key - (if key ∈ revisedKeys retracted then amount before field key else 0) -
    if key ∈ revisedKeys added then amount middle field key else 0

theorem residue_eq (field : String) (key : Key) :
    residue before retracted middle added field key =
      if key ∈ revisedKeys retracted then
        if key ∈ revisedKeys added then - amount middle field key else 0
      else if key ∈ revisedKeys added then 0 else amount middle field key := by
  rw [residue]
  by_cases one : key ∈ revisedKeys retracted
  · by_cases two : key ∈ revisedKeys added <;> simp [one, two]
  · rw [course.retract.amount_of_not_revised one]
    by_cases two : key ∈ revisedKeys added <;> simp [one, two]

theorem natAbs_residue_le (field : String) (key : Key) :
    (residue before retracted middle added field key).natAbs ≤ (amount middle field key).natAbs := by
  rw [course.residue_eq]
  split <;> split <;> simp

/-- With the additions, a bucket contributes what it has become. -/
theorem residue_add (field : String) (key : Key) :
    residue before retracted middle added field key +
      ((if key ∈ revisedKeys retracted then amount middle field key else 0) +
        if key ∈ revisedKeys added then amount after field key else 0) = amount after field key := by
  rw [course.residue_eq]
  by_cases two : key ∈ revisedKeys added
  · by_cases one : key ∈ revisedKeys retracted <;> simp [one, two]
  · rw [course.add.amount_of_not_revised two]
    by_cases one : key ∈ revisedKeys retracted <;> simp [one, two]

end Parent

end Course

/-! ## What a course forwards -/

/-- What the phases of a course queue for retraction at the next stage. -/
def retractions (child : Stage) (retracted added : List Revision) : List (Key × Document) :=
  retractionsOf child retracted ++ retractionsOf child added

/-- What the phases of a course queue for addition at the next stage. -/
def additions (child : Stage) (retracted added : List Revision) : List (Key × Document) :=
  additionsOf child retracted ++ additionsOf child added

section Forwarded

variable {verbs : List Verb} {parent child : Stage} {route : Key → Option Key} {b : Buckets}
  (merges : Merges verbs parent child route) (holds : ∀ key d, b.get? key = some d → parent.Holds verbs key d)

include merges holds

theorem map?_of_merges : ∀ key d, b.get? key = some d → child.map? (Stage.tagged key d) =
    (route key).map fun key' => (key', Stage.untagged key d) :=
  fun key d found => merges.map? key d (holds key d found).toReadable

/-- Entries come from buckets that the stage before has or had. -/
theorem mem_forwarded {rs : List Revision} {pick : Revision → Option Document}
    (picked : ∀ r ∈ rs, pick r = b.get? r.key) {e : Key × Document} (mem : e ∈ forwarded child pick rs) :
    child.Reads verbs e.1 e.2 ∧ ∃ key ∈ domain b, route key = some e.1 := by
  obtain ⟨r, member, made⟩ := List.mem_filterMap.1 mem
  obtain ⟨d, found, made⟩ := Option.bind_eq_some_iff.1 made
  rw [picked r member] at found
  rw [map?_of_merges merges holds r.key d found] at made
  obtain ⟨key', routed, rfl⟩ := Option.map_eq_some_iff.1 made
  exact ⟨merges.reads r.key key' d (holds r.key d found) routed, r.key, mem_domain.2 ⟨d, found⟩, routed⟩

end Forwarded

namespace Course

variable {verbs : List Verb} {parent child : Stage} {bound : Nat} {before middle after : Buckets}
  {retracted added : List Revision} {route : Key → Option Key}
  (course : Course verbs parent bound before retracted middle added after) (merges : Merges verbs parent child route)

include course merges

theorem mem_retractions {e : Key × Document} (mem : e ∈ retractions child retracted added) :
    child.Reads verbs e.1 e.2 ∧ ∃ key ∈ domain before, route key = some e.1 := by
  rcases List.mem_append.1 mem with mem | mem
  · exact mem_forwarded merges course.holds_before course.retract.old mem
  · rw [← course.domain_middle]
    exact mem_forwarded merges course.holds_middle course.add.old mem

theorem mem_additions {e : Key × Document} (mem : e ∈ additions child retracted added) :
    child.Reads verbs e.1 e.2 ∧ ∃ key ∈ domain after, route key = some e.1 := by
  rcases List.mem_append.1 mem with mem | mem
  · obtain ⟨reads, key, stored, routed⟩ := mem_forwarded merges course.holds_middle course.retract.picked_new mem
    exact ⟨reads, key, course.domain_middle_subset stored, routed⟩
  · exact mem_forwarded merges course.holds_after course.add.picked_new mem

/-- What is queued for retraction adds up to the old amounts. -/
theorem sum_retractions {M : Type} [AddCommMonoid M] {g : Document → M}
    (same : ∀ key d, g (Stage.untagged key d) = g d) (key' : Key) :
    ((docsOf (retractions child retracted added) key').map g).sum =
      inflow route (revisedKeys retracted) (fun key => (before.get? key).elim 0 g) key' +
        inflow route (revisedKeys added) (fun key => (middle.get? key).elim 0 g) key' := by
  rw [retractions, docsOf_append, List.map_append, List.sum_append]
  congr 1
  · exact sum_forwarded course.retract.nodup course.retract.old (map?_of_merges merges course.holds_before) same key'
  · exact sum_forwarded course.add.nodup course.add.old (map?_of_merges merges course.holds_middle) same key'

/-- What is queued for addition adds up to the new amounts. -/
theorem sum_additions {M : Type} [AddCommMonoid M] {g : Document → M}
    (same : ∀ key d, g (Stage.untagged key d) = g d) (key' : Key) :
    ((docsOf (additions child retracted added) key').map g).sum =
      inflow route (revisedKeys retracted) (fun key => (middle.get? key).elim 0 g) key' +
        inflow route (revisedKeys added) (fun key => (after.get? key).elim 0 g) key' := by
  rw [additions, docsOf_append, List.map_append, List.sum_append]
  congr 1
  · exact sum_forwarded course.retract.nodup course.retract.picked_new (map?_of_merges merges course.holds_middle) same key'
  · exact sum_forwarded course.add.nodup course.add.picked_new (map?_of_merges merges course.holds_after) same key'

variable {field : String} (linear : Linear child.reduces field) (key' : Key)

include linear

omit course key' in
theorem whole_untagged (key : Key) (d : Document) : whole (Stage.untagged key d) field = whole d field :=
  Stage.whole_untagged key d (linear.ne_key merges.counting)

omit key' in
theorem magnitude_retractions_le :
    magnitude ((retractions child retracted added).map Prod.snd) field ≤ 2 * bound := by
  obtain ⟨first, second, -⟩ := course.volume_le merges linear
  have one := magnitude_forwarded_le course.retract.nodup course.retract.old
    (map?_of_merges merges course.holds_before) (whole_untagged merges linear)
  have two := magnitude_forwarded_le course.add.nodup course.add.old
    (map?_of_merges merges course.holds_middle) (whole_untagged merges linear)
  rw [retractions, List.map_append, magnitude_append, retractionsOf, retractionsOf]
  omega

omit key' in
theorem magnitude_additions_le :
    magnitude ((additions child retracted added).map Prod.snd) field ≤ 2 * bound := by
  obtain ⟨-, second, third⟩ := course.volume_le merges linear
  have one := magnitude_forwarded_le course.retract.nodup course.retract.picked_new
    (map?_of_merges merges course.holds_middle) (whole_untagged merges linear)
  have two := magnitude_forwarded_le course.add.nodup course.add.picked_new
    (map?_of_merges merges course.holds_after) (whole_untagged merges linear)
  rw [additions, List.map_append, magnitude_append, additionsOf, additionsOf]
  omega

/-- What is retracted at the next stage leaves the residues. -/
theorem wholeSum_retractions : wholeSum (docsOf (retractions child retracted added) key') field =
    inflow route (domain after) (amount before field) key' -
      inflow route (domain after) (residue before retracted middle added field) key' := by
  have queued : wholeSum (docsOf (retractions child retracted added) key') field =
      inflow route (revisedKeys retracted) (amount before field) key' +
        inflow route (revisedKeys added) (amount middle field) key' :=
    course.sum_retractions merges (whole_untagged merges linear) key'
  rw [queued, inflow_restrict course.revisedKeys_retracted_subset, inflow_restrict course.revisedKeys_added_subset,
    ← inflow_add, ← inflow_sub]
  refine inflow_congr fun key _ => ?_
  rw [residue]
  omega

/-- What is added at the next stage makes up for the residues. -/
theorem wholeSum_additions : wholeSum (docsOf (additions child retracted added) key') field =
    inflow route (domain after) (amount after field) key' -
      inflow route (domain after) (residue before retracted middle added field) key' := by
  have queued : wholeSum (docsOf (additions child retracted added) key') field =
      inflow route (revisedKeys retracted) (amount middle field) key' +
        inflow route (revisedKeys added) (amount after field) key' :=
    course.sum_additions merges (whole_untagged merges linear) key'
  rw [queued, inflow_restrict course.revisedKeys_retracted_subset, inflow_restrict course.revisedKeys_added_subset,
    ← inflow_add, ← inflow_sub]
  refine inflow_congr fun key _ => ?_
  have total := course.residue_add field key
  omega

end Course

/-! ## Working off what was forwarded -/

/-- A chained stage that is in step with where a course of the stage before it began. -/
structure Backlog (verbs : List Verb) (parent child : Stage) (route : Key → Option Key) (bound : Nat)
    (before : Buckets) (retracted : List Revision) (middle : Buckets) (added : List Revision)
    (after c : Buckets) : Prop where
  course : Course verbs parent bound before retracted middle added after
  merges : Merges verbs parent child route
  inStep : InStep child route before c
  holds : ∀ key d, c.get? key = some d → child.Holds verbs key d
  small : 2 * bound < 2 ^ 53

namespace Backlog

open Course

variable {verbs : List Verb} {parent child : Stage} {route : Key → Option Key} {bound : Nat}
  {before middle after c : Buckets} {retracted added : List Revision}
  (backlog : Backlog verbs parent child route bound before retracted middle added after c)

include backlog

/-- What is retracted stands in buckets of the chained stage. -/
theorem retractions_mem {e : Key × Document} (mem : e ∈ retractions child retracted added) :
    child.Reads verbs e.1 e.2 ∧ e.1 ∈ domain c := by
  obtain ⟨reads, origin⟩ := backlog.course.mem_retractions backlog.merges mem
  exact ⟨reads, (backlog.inStep.domain e.1).2 origin⟩

/-! ### Sums of queues -/

section Linear

variable {field : String} (linear : Linear child.reduces field) (key' : Key)

include linear

theorem magnitude_retractions_le :
    magnitude (docsOf (retractions child retracted added) key') field ≤ 2 * bound :=
  (magnitude_docsOf_le _ field key').trans (backlog.course.magnitude_retractions_le backlog.merges linear)

theorem magnitude_additions_le :
    magnitude (docsOf (additions child retracted added) key') field ≤ 2 * bound :=
  (magnitude_docsOf_le _ field key').trans (backlog.course.magnitude_additions_le backlog.merges linear)

theorem amount_eq : amount c field key' = inflow route (domain after) (amount before field) key' := by
  rw [backlog.inStep.amount field linear]
  exact inflow_subset backlog.course.domain_before_subset fun key missing => amount_of_not_mem missing field

/-- Without what is retracted, a bucket is left with the residues. -/
theorem amount_sub_retractions :
    amount c field key' - wholeSum (docsOf (retractions child retracted added) key') field =
      inflow route (domain after) (residue before retracted middle added field) key' := by
  rw [backlog.amount_eq linear, backlog.course.wholeSum_retractions backlog.merges linear, sub_sub_cancel]

/-- The residues and what is added make up what the stage before has now. -/
theorem residue_add_additions :
    inflow route (domain after) (residue before retracted middle added field) key' +
        wholeSum (docsOf (additions child retracted added) key') field =
      inflow route (domain after) (amount after field) key' := by
  rw [backlog.course.wholeSum_additions backlog.merges linear, add_sub_cancel]

/-! ### Bounds -/

omit key' in
theorem sum_residue_le :
    ∑ key ∈ domain after, (residue before retracted middle added field key).natAbs ≤ bound := by
  refine (Finset.sum_le_sum fun key _ => backlog.course.natAbs_residue_le field key).trans ?_
  exact (sum_natAbs_amount_le middle field _).trans (backlog.course.volume_le backlog.merges linear).2.1

theorem natAbs_amount_le : (amount c field key').natAbs ≤ bound := by
  rw [backlog.amount_eq linear]
  refine (natAbs_inflow_le _).trans (inflow_le.trans ?_)
  exact (sum_natAbs_amount_le before field _).trans (backlog.course.volume_le backlog.merges linear).1

theorem natAbs_residue_le : (inflow route (domain after)
    (residue before retracted middle added field) key').natAbs ≤ bound :=
  (natAbs_inflow_le _).trans (inflow_le.trans (backlog.sum_residue_le linear))

theorem natAbs_after_le : (inflow route (domain after) (amount after field) key').natAbs ≤ bound := by
  refine (natAbs_inflow_le _).trans (inflow_le.trans ?_)
  exact (backlog.course.volume_le backlog.merges linear).2.2

end Linear

/-! ### The two phases -/

variable {first second : List Group}
  (whole_first : first.Perm (groupByKey (retractions child retracted added)))
  (whole_second : second.Perm (groupByKey (additions child retracted added)))

include whole_first

theorem amount_middle {field : String} (linear : Linear child.reduces field) (key' : Key) :
    amount (afterPhase child .retract c first) field key' =
      inflow route (domain after) (residue before retracted middle added field) key' := by
  have small := backlog.small
  have kept := backlog.natAbs_amount_le linear key'
  have left := backlog.amount_sub_retractions linear key'
  have leftLe := backlog.natAbs_residue_le linear key'
  have magnitude := backlog.magnitude_retractions_le linear key'
  rw [← left] at leftLe ⊢
  have stored : docsOf (retractions child retracted added) key' ≠ [] → key' ∈ domain c := by
    intro filled
    obtain ⟨d, mem⟩ := List.exists_mem_of_ne_nil _ filled
    exact (backlog.retractions_mem (mem_docsOf.1 mem)).2
  exact amount_retractAll whole_first backlog.merges.counting
    (fun e mem => (backlog.retractions_mem mem).1) backlog.holds stored linear (by omega) (by omega) (by omega)

theorem holds_middle : ∀ key d, (afterPhase child .retract c first).get? key = some d →
    child.Holds verbs key d :=
  holds_afterPhase backlog.merges.counting (nodup_of_perm whole_first)
    (reads_of_perm whole_first fun _ mem => (backlog.retractions_mem mem).1) backlog.holds

include whole_second

theorem amount_after {field : String} (linear : Linear child.reduces field) (key' : Key) :
    amount (afterPhase child .add (afterPhase child .retract c first) second) field key' =
      inflow route (domain after) (amount after field) key' := by
  have small := backlog.small
  have kept := backlog.amount_middle whole_first linear key'
  have keptLe := backlog.natAbs_residue_le linear key'
  have total := backlog.residue_add_additions linear key'
  have totalLe := backlog.natAbs_after_le linear key'
  have magnitude := backlog.magnitude_additions_le linear key'
  rw [← kept] at keptLe total
  rw [← total] at totalLe ⊢
  exact amount_addAll whole_second backlog.merges.counting
    (fun e mem => (backlog.course.mem_additions backlog.merges mem).1) (backlog.holds_middle whole_first) linear (by omega)
    (by omega) (by omega)

theorem holds_after : ∀ key d,
    (afterPhase child .add (afterPhase child .retract c first) second).get? key = some d →
    child.Holds verbs key d :=
  holds_afterPhase backlog.merges.counting (nodup_of_perm whole_second)
    (reads_of_perm whole_second fun _ mem => (backlog.course.mem_additions backlog.merges mem).1)
    (backlog.holds_middle whole_first)

/-- Afterwards there is a bucket for every key that buckets of the stage before go to. -/
theorem mem_domain_after (key' : Key) :
    key' ∈ domain (afterPhase child .add (afterPhase child .retract c first) second) ↔
      ∃ key ∈ domain after, route key = some key' := by
  have course := backlog.course
  have kept : domain (afterPhase child .retract c first) = domain c :=
    (revised_afterPhase (nodup_of_perm whole_first) c).domain_eq_of_stored fun r mem => stored_of_retract mem
  rw [mem_domain_addAll whole_second, kept, backlog.inStep.domain]
  constructor
  · rintro (⟨key, stored, routed⟩ | filled)
    · exact ⟨key, course.domain_before_subset stored, routed⟩
    · obtain ⟨d, mem⟩ := List.exists_mem_of_ne_nil _ filled
      exact (backlog.course.mem_additions backlog.merges (mem_docsOf.1 mem)).2
  · rintro ⟨key, stored, routed⟩
    rw [course.domain_after, Finset.mem_union, course.domain_middle] at stored
    rcases stored with old | revised
    · exact .inl ⟨key, old, routed⟩
    · obtain ⟨r, mem, rfl⟩ := mem_revisedKeys.1 revised
      -- A revised bucket is handed on, so its key is among the additions.
      have made := map?_of_merges backlog.merges course.holds_after r.key r.new (course.add.get?_of_mem mem)
      rw [routed] at made
      have queued : (key', Stage.untagged r.key r.new) ∈ additions child retracted added :=
        List.mem_append_right _ (List.mem_filterMap.2 ⟨r, mem, made⟩)
      exact .inr (List.ne_nil_of_mem (mem_docsOf.2 queued))

/-- Working off a backlog brings the stage in step again, by a course of its own. -/
theorem follow :
    Course verbs child bound c (revisions child .retract c first) (afterPhase child .retract c first)
        (revisions child .add (afterPhase child .retract c first) second)
        (afterPhase child .add (afterPhase child .retract c first) second) ∧
      InStep child route after (afterPhase child .add (afterPhase child .retract c first) second) := by
  have volumes := fun field (linear : Linear child.reduces field) =>
    backlog.course.volume_le backlog.merges linear
  have domain_after := backlog.mem_domain_after whole_first whole_second
  refine ⟨?_, domain_after, fun field linear => backlog.amount_after whole_first whole_second linear⟩
  exact {
    counting := backlog.merges.counting
    retract := revised_afterPhase (nodup_of_perm whole_first) c
    add := revised_afterPhase (nodup_of_perm whole_second) _
    stored := fun r mem => stored_of_retract mem
    holds_before := backlog.holds
    holds_middle := backlog.holds_middle whole_first
    holds_after := backlog.holds_after whole_first whole_second
    volume_before := fun field linear => volume_le_of_inflow (backlog.amount_eq linear)
      ((sum_natAbs_amount_le _ field _).trans (volumes field linear).1)
    volume_middle := fun field linear => volume_le_of_inflow
      (backlog.amount_middle whole_first linear) (backlog.sum_residue_le linear)
    volume_after := fun field linear => volume_le_of_inflow
      (backlog.amount_after whole_first whole_second linear) (volumes field linear).2.2
    size := by
      refine le_trans ?_ backlog.course.size
      rw [← Finset.card_image_of_injective _ (Option.some_injective Key)]
      refine (Finset.card_le_card fun target mem => ?_).trans (Finset.card_image_le (f := route))
      obtain ⟨key', stored, rfl⟩ := Finset.mem_image.1 mem
      obtain ⟨key, mem, routed⟩ := (domain_after key').1 stored
      exact Finset.mem_image.2 ⟨key, mem, routed⟩ }

end Backlog

end Rollup.Ingest
