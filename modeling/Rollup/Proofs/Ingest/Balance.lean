import Rollup.Proofs.Ingest.Links
import Rollup.Proofs.Ingest.Stock
import Rollup.Proofs.Pipeline

/-!
# What buckets are due

What a bucket comes to once its queues are worked off is what it is due (`due`).  A stage that works off
its queues gives a stored bucket its due whatever happens to other buckets (`Worked.due_eq`), and what it
hands on changes what is due behind it by as much as its own buckets have changed
(`Course.due_received`).  So what a bucket is due and what flows into it stay as far apart as they are,
whichever accesses to other buckets fail and whether or not stores are flushed (`Commits.gap_eq`).

A bucket that is not stored is another matter: what is retracted from it is skipped.
-/

namespace Rollup

/-- No read and no write of the entry under a key fails. -/
def FaultPlan.SparesKey (plan : FaultPlan) (scope : ScopeId) (key : Key) : Prop :=
  ∀ f, ¬ plan.FailsAt scope .get (some key) f ∧ ¬ plan.FailsAt scope .set (some key) f

namespace Ingest

open Document

/-! ## One stage -/

/-- What the bucket under a key comes to once the queues are worked off. -/
def due (b : Buckets) (q : Queues) (field : String) (key : Key) : Int :=
  amount b field key - wholeSum (docsOf q.retractions key) field + wholeSum (docsOf q.additions key) field

theorem due_empty (b : Buckets) (field : String) (key : Key) : due b {} field key = amount b field key := by
  simp [due, docsOf, wholeSum]

/-- Where nothing of a bucket is refused, it does not matter what is left out. -/
theorem Done.amount_eq {plan : FaultPlan} {site : Site} {phase : Phase} {b : Buckets} {groups done : List Group}
    {key : Key} (done_ : Done plan site phase b groups done) (nodup : (groups.map Prod.fst).Nodup)
    (spares : plan.SparesKey site.scope key) (field : String) :
    amount (afterPhase site.stage phase b done) field key =
      amount (afterPhase site.stage phase b groups) field key := by
  have free : ∀ group ∈ groups, group.1 = key → ∀ f, ¬ Refused plan site phase b group f := by
    rintro group - rfl f (get | ⟨-, set⟩)
    · exact (spares f).1 get
    · exact (spares f).2 set
  rw [amount, amount, done_.get?_of_not_refused nodup free]

section Stage

variable {verbs : List Verb} {plan : FaultPlan} {workers : Nat} {site : Site} {q q' : Queues} {s : Store}
  {retracted added : List Revision} {ok : Bool} {bound : Nat}
  (worked : Worked plan workers site q s retracted added q' ok)

include worked

theorem Worked.domain_subset :
    domain (s.buckets site.scope) ⊆ domain (applyAll added (applyAll retracted (s.buckets site.scope))) := by
  obtain ⟨first, second, part, part', rfl, rfl, -⟩ := worked.part
  have one := @revised_revisions site.stage .retract _ (nodup_of_subperm part) (s.buckets site.scope)
  have two := @revised_revisions site.stage .add _ (nodup_of_subperm part') (applyAll
    (revisions site.stage .retract (s.buckets site.scope) first) (s.buckets site.scope))
  rw [two.domain_eq, one.domain_eq]
  exact Finset.subset_union_left.trans Finset.subset_union_left

variable (stocked : Stocked verbs site.stage (s.buckets site.scope) q)
  (fits : Fits bound site.stage (s.buckets site.scope) q) (small : bound < 2 ^ 53)

include stocked fits small

theorem Worked.course : Course verbs site.stage bound (s.buckets site.scope) retracted
    (applyAll retracted (s.buckets site.scope)) added (applyAll added (applyAll retracted (s.buckets site.scope))) := by
  obtain ⟨first, second, part, part', rfl, rfl, -⟩ := worked.part
  exact stocked.course part part' fits small

theorem Worked.remainder :
    Stocked verbs site.stage (applyAll added (applyAll retracted (s.buckets site.scope))) q' ∧
      Fits bound site.stage (applyAll added (applyAll retracted (s.buckets site.scope))) q' := by
  obtain ⟨first, second, part, part', rfl, rfl, drained, left⟩ := worked.part
  obtain ⟨stocked', bulk⟩ := stocked.remainder part part' drained left
  exact ⟨stocked', fun field linear =>
    (bulk field linear ((fits field linear).trans_lt small)).trans (fits field linear)⟩

/-- A stored bucket gets what it is due, and is due what it did not get. -/
theorem Worked.due_eq {key : Key} (spares : plan.SparesKey site.scope key)
    (stored : key ∈ domain (s.buckets site.scope)) {field : String} (linear : Linear site.stage.reduces field) :
    due (applyAll added (applyAll retracted (s.buckets site.scope))) q' field key =
      due (s.buckets site.scope) q field key := by
  have light := (fits field linear).trans_lt small
  have subtracted := stocked.amount_retracted linear light (order_perm workers _) fun _ => stored
  cases worked with
  | halted part short retract =>
    -- The removals are gone, and the additions that still wait are due as before.
    subst retract
    have same := part.amount_eq (nodup_order workers _) spares field
    show amount (afterPhase site.stage .retract (s.buckets site.scope) _) field key - 0 + _ = _
    rw [same, subtracted, Int.sub_zero]
    rfl
  | ended part whole retract part' whole' add =>
    subst whole retract add
    have same := part'.amount_eq (nodup_order workers _) spares field
    rw [due_empty]
    refine same.trans ?_
    refine (stocked.amount_added linear light (order_perm workers _).subperm (order_perm workers _)).trans ?_
    rw [subtracted, due]

end Stage

/-! ## What is handed on -/

section Received

variable {verbs : List Verb} {parent child : Stage} {route : Key → Option Key} {bound : Nat}
  {before middle after c : Buckets} {retracted added : List Revision} {q : Queues}
  (course : Course verbs parent bound before retracted middle added after)
  (merges : Merges verbs parent child route)

include course

/-- A course adds one entry for every bucket that it revised, in either phase. -/
theorem Course.length_additions_le : (additions child retracted added).length ≤ 2 * bound := by
  have revised : ∀ {b b' : Buckets} {rs : List Revision}, Revised b rs b' → revisedKeys rs ⊆ domain after →
      (additionsOf child rs).length ≤ bound := by
    intro b b' rs revised subset
    calc (additionsOf child rs).length
        ≤ (rs.map Revision.key).length := by
          rw [List.length_map]
          exact List.length_filterMap_le _ _
      _ = (revisedKeys rs).card := (List.toFinset_card_of_nodup revised.nodup).symm
      _ ≤ bound := (Finset.card_le_card subset).trans course.size
  have one := revised course.retract course.revisedKeys_retracted_subset
  have two := revised course.add course.revisedKeys_added_subset
  rw [additions, List.length_append]
  omega

include merges

theorem Course.stocked_received (stocked : Stocked verbs child c q) :
    Stocked verbs child c (received q child retracted added) where
  counting := stocked.counting
  holds := stocked.holds
  reads
    | .retract, e, mem => (List.mem_append.1 mem).elim (stocked.reads .retract e) fun mem =>
        (course.mem_retractions merges mem).1
    | .add, e, mem => (List.mem_append.1 mem).elim (stocked.reads .add e) fun mem =>
        (course.mem_additions merges mem).1

/-- A course hands on twice what each phase holds, in either queue. -/
theorem Course.fits_received (fits : Fits bound child c q) :
    Fits (7 * bound) child c (received q child retracted added) := by
  intro field linear
  have own := fits field linear
  have one := course.magnitude_retractions_le merges linear
  have two := course.magnitude_additions_le merges linear
  have size := @Course.length_additions_le _ _ child _ _ _ _ _ _ course
  rw [bulk] at own
  rw [bulk, received, List.map_append, List.map_append, magnitude_append, magnitude_append, List.length_append]
  omega

/-- What is due changes by as much as what flows in. -/
theorem Course.due_received {field : String} (linear : Linear child.reduces field) (key' : Key) :
    due c (received q child retracted added) field key' - inflow route (domain after) (amount after field) key' =
      due c q field key' - inflow route (domain before) (amount before field) key' := by
  have less := course.wholeSum_retractions merges linear key'
  have more := course.wholeSum_additions merges linear key'
  -- A bucket that was opened on the way came to nothing before.
  have start : inflow route (domain before) (amount before field) key' =
      inflow route (domain after) (amount before field) key' :=
    inflow_subset course.domain_before_subset fun key missing => amount_of_not_mem missing field
  rw [due, due, received, docsOf_append, docsOf_append, wholeSum_append, wholeSum_append]
  omega

end Received

/-! ## Chains -/

/-- Every stage of a chain has what is of its kind, within a bound that leaves room for what may be handed
on to the last. -/
structure Laden (verbs : List Verb) (bound : Nat) (sites : List Site) (qs : List Queues) (s : Store) : Prop where
  chained : Chained verbs (sites.map Site.stage)
  placed : Placed sites s
  length : qs.length = sites.length
  stocked : ∀ e ∈ sites.zip qs, Stocked verbs e.1.stage (s.buckets e.1.scope) e.2
  fits : ∀ e ∈ sites.zip qs, Fits bound e.1.stage (s.buckets e.1.scope) e.2
  room : 7 ^ sites.length * bound < 2 ^ 53

theorem le_pow_seven_mul (n bound : Nat) : bound ≤ 7 ^ n * bound :=
  Nat.le_mul_of_pos_left bound (Nat.pow_pos (by decide))

section Chain

variable {verbs : List Verb} {bound : Nat} {plan : FaultPlan} {workers : Nat} {site : Site}
  {sites behindSites : List Site} {q q' : Queues} {qs qs' : List Queues} {s s' : Store}
  {retracted added : List Revision} {ok : Bool}

theorem Laden.stocked_head (laden : Laden verbs bound (site :: behindSites) (q :: qs) s) :
    Stocked verbs site.stage (s.buckets site.scope) q := laden.stocked (site, q) List.mem_cons_self

theorem Laden.fits_head (laden : Laden verbs bound (site :: behindSites) (q :: qs) s) :
    Fits bound site.stage (s.buckets site.scope) q := laden.fits (site, q) List.mem_cons_self

theorem Laden.small (laden : Laden verbs bound sites qs s) : bound < 2 ^ 53 :=
  (le_pow_seven_mul _ _).trans_lt laden.room

/-- The stages behind one that has worked off its queues have more to do. -/
theorem Laden.behind (laden : Laden verbs bound (site :: behindSites) (q :: qs) s)
    (worked : Worked plan workers site q s retracted added q' ok) :
    Laden verbs (7 * bound) behindSites (handOn behindSites added (handOn behindSites retracted qs))
      (storeAll site.scope added (storeAll site.scope retracted s)) := by
  obtain ⟨-, others⟩ := @buckets_revised site behindSites s retracted added laden.placed
  have course := worked.course laden.stocked_head laden.fits_head laden.small
  have room := laden.room
  rw [List.length_cons, Nat.pow_succ, Nat.mul_assoc] at room
  have placed := laden.placed.revised retracted added
  cases behindSites with
  | nil => exact ⟨List.isChain_nil, placed, by rw [length_handOn, length_handOn]; exact Nat.succ.inj laden.length,
      nofun, nofun, room⟩
  | cons next rest =>
    obtain ⟨⟨route, merges⟩, chained⟩ := List.isChain_cons_cons.1 laden.chained
    cases qs with
    | nil => cases laden.length
    | cons first qs =>
      -- Only the queues of the next stage have grown.
      rw [handOn_handOn]
      have kept : ∀ e ∈ (next :: rest).zip (first :: qs),
          Stocked verbs e.1.stage
            ((storeAll site.scope added (storeAll site.scope retracted s)).buckets e.1.scope) e.2 ∧
          Fits bound e.1.stage
            ((storeAll site.scope added (storeAll site.scope retracted s)).buckets e.1.scope) e.2 := by
        intro e mem
        rw [others e.1 (List.of_mem_zip mem).1]
        exact ⟨laden.stocked e (List.mem_cons_of_mem _ mem), laden.fits e (List.mem_cons_of_mem _ mem)⟩
      refine ⟨chained, placed, Nat.succ.inj laden.length, ?_, ?_, room⟩
      · intro e mem
        rcases List.mem_cons.1 mem with rfl | mem
        · exact course.stocked_received merges (kept (next, first) List.mem_cons_self).1
        · exact (kept e (List.mem_cons_of_mem _ mem)).1
      · intro e mem
        rcases List.mem_cons.1 mem with rfl | mem
        · exact course.fits_received merges (kept (next, first) List.mem_cons_self).2
        · exact (kept e (List.mem_cons_of_mem _ mem)).2.mono (by omega)

/-- What a commit leaves is of its kind too, within a bound for all that was handed on. -/
theorem Commits.remainder (commits : Commits plan workers sites qs s ok qs' s') (laden : Laden verbs bound sites qs s) :
    ∀ e ∈ sites.zip qs', Stocked verbs e.1.stage (s'.buckets e.1.scope) e.2 ∧
      Fits (7 ^ sites.length * bound) e.1.stage (s'.buckets e.1.scope) e.2 := by
  induction commits generalizing bound with
  | nil => nofun
  | @unflushed site behindSites q q' qs s retracted added f worked failing =>
    obtain ⟨own, -⟩ := @buckets_revised site behindSites s retracted added laden.placed
    obtain ⟨stocked, fits⟩ := worked.remainder laden.stocked_head laden.fits_head laden.small
    -- What was handed on waits behind, and nobody works it off.
    have handed := laden.behind worked
    intro e mem
    rcases List.mem_cons.1 mem with rfl | mem
    · rw [own]
      exact ⟨stocked, fits.mono (le_pow_seven_mul _ _)⟩
    · refine ⟨handed.stocked e mem, (handed.fits e mem).mono ?_⟩
      rw [List.length_cons, Nat.pow_succ, Nat.mul_assoc]
      exact le_pow_seven_mul _ _
  | @cons site behindSites q q' qs qs' s s' retracted added ok₁ ok₂ worked later ih =>
    obtain ⟨own, -⟩ := @buckets_revised site behindSites s retracted added laden.placed
    obtain ⟨stocked, fits⟩ := worked.remainder laden.stocked_head laden.fits_head laden.small
    intro e mem
    rcases List.mem_cons.1 mem with rfl | mem
    · rw [later.buckets_of_not_mem laden.placed.head_not_mem, own]
      exact ⟨stocked, fits.mono (le_pow_seven_mul _ _)⟩
    · rw [List.length_cons, Nat.pow_succ, Nat.mul_assoc]
      exact ih (laden.behind worked) e mem

theorem Commits.domain_subset (commits : Commits plan workers sites qs s ok qs' s') (placed : Placed sites s) :
    ∀ site ∈ sites, domain (s.buckets site.scope) ⊆ domain (s'.buckets site.scope) := by
  induction commits with
  | nil => nofun
  | @unflushed site behindSites q q' qs s retracted added f worked failing =>
    obtain ⟨own, others⟩ := @buckets_revised site behindSites s retracted added placed
    intro other mem
    rcases List.mem_cons.1 mem with rfl | mem
    · rw [own]
      exact worked.domain_subset
    · rw [others other mem]
  | @cons site behindSites q q' qs qs' s s' retracted added ok₁ ok₂ worked later ih =>
    obtain ⟨own, others⟩ := @buckets_revised site behindSites s retracted added placed
    intro other mem
    rcases List.mem_cons.1 mem with rfl | mem
    · rw [later.buckets_of_not_mem placed.head_not_mem, own]
      exact worked.domain_subset
    · rw [← others other mem]
      exact ih (placed.revised retracted added) other mem

/-! ### Gaps -/

/-- How far what a bucket is due is from what flows into it. -/
def gap (route : Key → Option Key) (parent child : Buckets) (q : Queues) (field : String) (key : Key) : Int :=
  due child q field key - inflow route (domain parent) (amount parent field) key

section Gap

variable {parent child : Site} {route : Key → Option Key} {key : Key} {field : String} {j : Nat}
  (parent_at : sites[j]? = some parent) (child_at : sites[j + 1]? = some child)
  (merges : Merges verbs parent.stage child.stage route) (linear : Linear child.stage.reduces field)

theorem getD_handOn_succ (sites : List Site) (rs : List Revision) (qs : List Queues) (j : Nat) :
    (handOn sites rs qs).getD (j + 1) {} = qs.getD (j + 1) {} := by
  cases sites <;> cases qs <;> rfl

include merges linear in
/-- A stage that works off its queues keeps all gaps behind it. -/
theorem Laden.gap_eq (laden : Laden verbs bound (site :: behindSites) (q :: qs) s)
    (worked : Worked plan workers site q s retracted added q' ok)
    (parent_at : (site :: behindSites)[j]? = some parent) (child_at : (site :: behindSites)[j + 1]? = some child) :
    gap route ((storeAll site.scope added (storeAll site.scope retracted s)).buckets parent.scope)
        ((storeAll site.scope added (storeAll site.scope retracted s)).buckets child.scope)
        ((q' :: handOn behindSites added (handOn behindSites retracted qs)).getD (j + 1) {}) field key =
      gap route (s.buckets parent.scope) (s.buckets child.scope) ((q :: qs).getD (j + 1) {}) field key := by
  obtain ⟨own, others⟩ := @buckets_revised site behindSites s retracted added laden.placed
  rw [List.getElem?_cons_succ] at child_at
  rw [others child (List.mem_of_getElem? child_at)]
  cases j with
  | succ j =>
    rw [List.getElem?_cons_succ] at parent_at
    rw [others parent (List.mem_of_getElem? parent_at), List.getD_cons_succ, List.getD_cons_succ, getD_handOn_succ,
      getD_handOn_succ]
  | zero =>
    obtain rfl : site = parent := Option.some.inj parent_at
    cases behindSites with
    | nil => cases child_at
    | cons next rest =>
      obtain rfl : next = child := Option.some.inj child_at
      cases qs with
      | nil => cases laden.length
      | cons first qs =>
        rw [handOn_handOn, own]
        exact (worked.course laden.stocked_head laden.fits_head laden.small).due_received merges linear key

theorem Commits.due_head (commits : Commits plan workers (site :: behindSites) (q :: qs) s ok qs' s')
    (laden : Laden verbs bound (site :: behindSites) (q :: qs) s) (spares : plan.SparesKey site.scope key)
    (stored : key ∈ domain (s.buckets site.scope)) (linear : Linear site.stage.reduces field) :
    due (s'.buckets site.scope) (qs'.getD 0 {}) field key = due (s.buckets site.scope) q field key := by
  obtain ⟨retracted, added, q', ok₁, worked, ⟨f, -, -, rfl, rfl⟩ | ⟨ok₂, qs', later, -, rfl⟩⟩ := commits.inv
  · rw [(buckets_revised laden.placed).1]
    exact worked.due_eq laden.stocked_head laden.fits_head laden.small spares stored linear
  · rw [later.buckets_of_not_mem laden.placed.head_not_mem, (buckets_revised laden.placed).1]
    exact worked.due_eq laden.stocked_head laden.fits_head laden.small spares stored linear

include parent_at child_at merges linear in
/-- A commit keeps the gap of a stored bucket that is spared, whatever fails elsewhere. -/
theorem Commits.gap_eq (commits : Commits plan workers sites qs s ok qs' s') (laden : Laden verbs bound sites qs s)
    (spares : plan.SparesKey child.scope key) (stored : key ∈ domain (s.buckets child.scope)) :
    gap route (s'.buckets parent.scope) (s'.buckets child.scope) (qs'.getD (j + 1) {}) field key =
      gap route (s.buckets parent.scope) (s.buckets child.scope) (qs.getD (j + 1) {}) field key := by
  -- The stage that is worked off first changes what flows in; working off the one behind it changes its
  -- queues and buckets by the same amounts.
  induction commits generalizing bound j with
  | nil => cases parent_at
  | unflushed worked failing => exact laden.gap_eq merges linear worked parent_at child_at
  | @cons site behindSites q q' qs qs' s s' retracted added ok₁ ok₂ worked later ih =>
    rw [← laden.gap_eq merges linear worked parent_at child_at]
    have handed := laden.behind worked
    rw [List.getElem?_cons_succ] at child_at
    obtain ⟨own, others⟩ := @buckets_revised site behindSites s retracted added laden.placed
    rw [← others child (List.mem_of_getElem? child_at)] at stored
    rw [List.getD_cons_succ, List.getD_cons_succ]
    cases j with
    | succ j => exact ih parent_at child_at handed stored
    | zero =>
      obtain rfl : site = parent := Option.some.inj parent_at
      cases behindSites with
      | nil => cases child_at
      | cons next rest =>
        obtain rfl : next = child := Option.some.inj child_at
        cases qs with
        | nil => cases laden.length
        | cons first qs =>
          rw [handOn_handOn] at later handed ⊢
          -- The child works off what it got, and its parent has had its turn.
          rw [gap, gap, later.due_head handed spares stored linear, later.buckets_of_not_mem laden.placed.head_not_mem]
          rfl

end Gap

end Chain

end Ingest

end Rollup
