import Rollup.Proofs.Ingest.Balance
import Rollup.Proofs.Ingest.Folding

/-!
# Sessions with failures

Where accesses and flushes of any stage may fail, a chained stage need not fold the stage before it
between calls, because what was handed on may wait in its queues.  What is queued is of its kind all the
same (`Steady`), and stored buckets keep the gaps that they have (`Onward`).  So a bucket that agrees with
the stage before it after one successful commit agrees with it after every later one
(`Steady.agreesAt_after`).  While no commit has failed, all that is stored agrees (`Level`).
-/

namespace Rollup

namespace Ingest

open Document

/-- The bucket under a key is stored, and its count and the unique counts merged so far are those of the
buckets of the stage before that go there, added up. -/
def AgreesAt (s : Store) (parent child : Site) (key : Key) : Prop :=
  ∃ d, s.get? child.scope key = some d ∧ HasInt d Field.count (wholeSum (inputs s parent child key) Field.count) ∧
    ∀ name, .uniqueTally name ∈ child.stage.reduces → HasInt d name (wholeSum (inputs s parent child key) name)

theorem agreesAt_iff {verbs : List Verb} {s : Store} {parent child : Site} {route : Key → Option Key}
    (merges : Merges verbs parent.stage child.stage route) (sorted : (s.buckets parent.scope).Sorted)
    (holds : ∀ key d, (s.buckets parent.scope).get? key = some d → parent.stage.Holds verbs key d)
    (holds' : ∀ key d, (s.buckets child.scope).get? key = some d → child.stage.Holds verbs key d) {key : Key} :
    AgreesAt s parent child key ↔ key ∈ domain (s.buckets child.scope) ∧
      ∀ field, Linear child.stage.reduces field → amount (s.buckets child.scope) field key =
        inflow route (domain (s.buckets parent.scope)) (amount (s.buckets parent.scope) field) key := by
  simp only [inflow_eq_wholeSum merges sorted holds]
  constructor
  · rintro ⟨d, found, count, tallies⟩
    rw [Store.get?_eq] at found
    refine ⟨mem_domain.2 ⟨d, found⟩, fun field linear => ?_⟩
    rw [amount_of_get? found]
    rcases linear with rfl | mem
    · obtain ⟨m, has, same⟩ := count
      rw [whole_of_int has, same]
    · obtain ⟨m, has, same⟩ := tallies field mem
      rw [whole_of_int has, same]
  · rintro ⟨stored, amounts⟩
    obtain ⟨d, found⟩ := mem_domain.1 stored
    have sums : ∀ field, Linear child.stage.reduces field →
        whole d field = wholeSum (inputs s parent child key) field := by
      intro field linear
      rw [← amount_of_get? found, amounts field linear]
    refine ⟨d, found, hasInt_of_whole (holds' key d found).count (sums _ (.inl rfl)), fun name mem => ?_⟩
    exact hasInt_of_whole ((holds' key d found).tallied name mem) (sums name (.inr mem))

end Ingest

namespace Ingestor

open Ingest Document

/-! ## Sessions with failures -/

def Session.Fits (t : Session) (bound : Nat) : Prop :=
  ∀ e ∈ t.1.sites.zip t.1.queues, Ingest.Fits bound e.1.stage (t.2.store.buckets e.1.scope) e.2

/-- No total that a call adds up can reach `2 ^ 53`.  A call adds one document, and in a commit every
stage may get as much as six times what the stage before it comes to. -/
def Session.Light (t : Session) : Prop :=
  ∃ bound, t.Fits bound ∧ 7 ^ t.1.sites.length * (bound + 2) < 2 ^ 53

/-- A commit would return normally now. -/
def Session.Commits (t : Session) : Prop := (Ingestor.commit.run t.1 t.2).1 = .ok ()

/-- How far what a bucket of the stage behind the `j`-th is due is from what flows into it. -/
def Session.gap (t : Session) (j : Nat) (parent child : Site) (route : Key → Option Key) (field : String)
    (key : Key) : Int :=
  Ingest.gap route (t.2.store.buckets parent.scope) (t.2.store.buckets child.scope) (t.1.queues.getD (j + 1) {})
    field key

theorem natAbs_whole_le_one {verbs : List Verb} {stage : Stage} {entry : Key × Document}
    (queued : Queued verbs stage entry) {field : String} (linear : Linear stage.reduces field) : (whole entry.2 field).natAbs ≤ 1 := by
  rcases linear with rfl | mem
  · rw [whole_of_int queued.fresh.count]
    decide
  · rw [whole_of_none (queued.fresh.tally field mem)]
    decide

theorem stocked_push {verbs : List Verb} {stage : Stage} {b : Ingest.Buckets} {q : Queues} {entry : Key × Document}
    {bound : Nat} (queued : Queued verbs stage entry) (phase : Phase) (stocked : Stocked verbs stage b q)
    (fits : Ingest.Fits bound stage b q) :
    Stocked verbs stage b (q.push entry phase) ∧ Ingest.Fits (bound + 2) stage b (q.push entry phase) := by
  refine ⟨⟨stocked.counting, stocked.holds, fun which e mem => ?_⟩, fun field linear => ?_⟩
  · rcases mem_entries_push mem with kept | rfl
    · exact stocked.reads which e kept
    · exact queued.reads
  · have one := natAbs_whole_le_one queued linear
    have total := fits field linear
    have single : magnitude [entry.2] field = (whole entry.2 field).natAbs := Nat.add_zero _
    rw [bulk] at total
    cases phase <;>
      simp only [bulk, Queues.push, List.map_append, magnitude_append, List.map_singleton, single, List.length_append,
        List.length_singleton] <;>
      omega

/-- What holds of a session between calls, whichever calls to the store fail short of a crash. -/
structure Steady (verbs : List Verb) (t : Session) : Prop where
  counting : Counting verbs
  root : t.1.rootStage? = some (Stage.root verbs)
  chained : Chained verbs (t.1.sites.map Site.stage)
  placed : Placed t.1.sites t.2.store
  length : t.1.queues.length = t.1.sites.length
  stocked : ∀ e ∈ t.1.sites.zip t.1.queues, Stocked verbs e.1.stage (t.2.store.buckets e.1.scope) e.2
  sorted : ∀ id, (t.2.store.buckets id).Sorted
  civil : t.2.plan.Civil

/-- What calls do to a session: buckets are not lost, and those that are stored and spared keep their
gaps. -/
structure Onward (verbs : List Verb) (t t' : Session) : Prop where
  steady : Steady verbs t'
  sites : t'.1.sites = t.1.sites
  plan : t'.2.plan = t.2.plan
  grows : ∀ site ∈ t.1.sites, domain (t.2.store.buckets site.scope) ⊆ domain (t'.2.store.buckets site.scope)
  gap : ∀ {j : Nat} {parent child : Site}, t.1.sites[j]? = some parent → t.1.sites[j + 1]? = some child →
    ∀ {route : Key → Option Key}, Merges verbs parent.stage child.stage route →
    ∀ {key : Key}, t.2.plan.SparesKey child.scope key → key ∈ domain (t.2.store.buckets child.scope) →
    ∀ {field : String}, Linear child.stage.reduces field →
    t'.gap j parent child route field key = t.gap j parent child route field key

namespace Onward

variable {verbs : List Verb} {t t' t'' : Session}

theorem refl (steady : Steady verbs t) : Onward verbs t t where
  steady := steady
  sites := rfl
  plan := rfl
  grows _ _ := Finset.Subset.refl _
  gap := by
    intros
    rfl

theorem trans (first : Onward verbs t t') (second : Onward verbs t' t'') : Onward verbs t t'' where
  steady := second.steady
  sites := second.sites.trans first.sites
  plan := second.plan.trans first.plan
  grows site mem := (first.grows site mem).trans (second.grows site (first.sites ▸ mem))
  gap parent child _ merges _ spares stored _ linear := by
    have kept := first.gap parent child merges spares stored linear
    rw [← first.sites] at parent child
    rw [← first.plan] at spares
    have grown := first.grows _ (first.sites ▸ List.mem_of_getElem? child) stored
    exact (second.gap parent child merges spares grown linear).trans kept

end Onward

namespace Steady

variable {verbs : List Verb} {t : Session} {bound : Nat}

theorem laden (steady : Steady verbs t) (fits : t.Fits bound) (room : 7 ^ t.1.sites.length * bound < 2 ^ 53) :
    Laden verbs bound t.1.sites t.1.queues t.2.store :=
  ⟨steady.chained, steady.placed, steady.length, steady.stocked, fits, room⟩

/-- A commit returns, and where all goes well the chain settles. -/
theorem commit (steady : Steady verbs t) (fits : t.Fits bound) (room : 7 ^ t.1.sites.length * bound < 2 ^ 53) :
    ∃ r ok, ∃ t' : Session, Ingestor.commit.run t.1 t.2 = (r, t') ∧ Answers r ok ∧ Onward verbs t t' ∧
      t'.Fits (7 ^ t.1.sites.length * bound) ∧
      (ok = true → Settled t.1.sites t.1.queues t.2.store t'.1.queues t'.2.store) := by
  obtain ⟨i, w⟩ := t
  obtain ⟨r, ok, qs', w', ran, answers, plan, commits⟩ :=
    run_commit i.config.commitWorkers i.sites i.queues w steady.length steady.civil steady.placed.open_
  have laden := steady.laden fits room
  have remainder := commits.remainder laden
  refine ⟨r, ok, ({ i with queues := qs' }, w'), by rw [run_commit_eq, ran], answers, ?_,
    fun e mem => (remainder e mem).2, fun well => (well ▸ commits).settled⟩
  constructor
  case steady => exact {
    counting := steady.counting
    root := steady.root
    chained := steady.chained
    placed := steady.placed.of_length commits.sameTree.length_scopes
    length := commits.length_queues steady.length
    stocked := fun e mem => (remainder e mem).1
    sorted := commits.sorted steady.placed steady.sorted
    civil := plan ▸ steady.civil }
  case sites => rfl
  case plan => exact plan
  case grows => exact commits.domain_subset steady.placed
  case gap =>
    intro j parent child parent_at child_at route merges key spares stored field linear
    exact commits.gap_eq parent_at child_at merges linear laden spares stored

/-- Queueing a document at the root adds two at most to its bulk, and leaves the stages behind alone. -/
theorem enqueue {ε : Type} (steady : Steady verbs t) (fits : t.Fits bound) (phase : Phase) (doc : Document) :
    ∃ r, ∃ t' : Session, (Ingestor.enqueue phase doc : Action ε Ingestor (Option Nat)).run t.1 t.2 = (.ok r, t') ∧
      Onward verbs t t' ∧ t'.Fits (bound + 2) ∧ t'.2.store = t.2.store ∧ t'.1.config = t.1.config ∧
      ∃ q, t'.1.queues = q :: t.1.queues.tail := by
  obtain ⟨⟨sites, queues, config, pending⟩, w⟩ := t
  obtain ⟨root, head, stage⟩ := Option.map_eq_some_iff.1 steady.root
  obtain ⟨behindSites, rfl⟩ : ∃ behindSites, sites = root :: behindSites := List.head?_eq_some_iff.1 head
  obtain ⟨q, qs, rfl⟩ : ∃ q qs, queues = q :: qs := List.exists_cons_of_length_eq_add_one steady.length
  obtain ⟨i', w', rfl, plan, store, ran⟩ := @run_enqueueRoot ε ⟨root :: behindSites, q :: qs, config, pending⟩ _ _ _ _
    rfl rfl phase doc w
  -- Nothing changes but the queues of the root.
  have own : Stocked verbs root.stage (w.store.buckets root.scope) ((root.stage.map? doc).elim q (q.push · phase)) ∧
      Ingest.Fits (bound + 2) root.stage (w.store.buckets root.scope)
        ((root.stage.map? doc).elim q (q.push · phase)) := by
    have stocked := steady.stocked (root, q) List.mem_cons_self
    have fits := fits (root, q) List.mem_cons_self
    cases made : root.stage.map? doc with
    | none => exact ⟨stocked, fits.mono (Nat.le_add_right _ _)⟩
    | some entry =>
      rw [stage] at made
      exact stocked_push (stage ▸ queued_of_root_map? steady.counting made) phase stocked fits
  have kept : ∀ e ∈ (root :: behindSites).zip ((root.stage.map? doc).elim q (q.push · phase) :: qs),
      Stocked verbs e.1.stage (w'.store.buckets e.1.scope) e.2 ∧
        Ingest.Fits (bound + 2) e.1.stage (w'.store.buckets e.1.scope) e.2 := by
    rw [store]
    intro e mem
    rcases List.mem_cons.1 mem with rfl | mem
    · exact own
    · have later : e ∈ (root :: behindSites).zip (q :: qs) := List.mem_cons_of_mem _ mem
      exact ⟨steady.stocked e later, (fits e later).mono (Nat.le_add_right _ _)⟩
  refine ⟨_, (_, w'), ran, ?_, fun e mem => (kept e mem).2, store, rfl, _, rfl⟩
  constructor
  case steady => exact {
    counting := steady.counting
    root := steady.root
    chained := steady.chained
    placed := store ▸ steady.placed
    length := steady.length
    stocked := fun e mem => (kept e mem).1
    sorted := store ▸ steady.sorted
    civil := plan ▸ steady.civil }
  case sites => rfl
  case plan => exact plan
  case grows =>
    rw [store]
    exact fun _ _ => Finset.Subset.refl _
  case gap =>
    intros
    simp only [Session.gap, store]
    rfl

theorem step (steady : Steady verbs t) (fits : t.Fits bound) (room : 7 ^ t.1.sites.length * (bound + 2) < 2 ^ 53)
    (op : Op) : Onward verbs t (t.step op) ∧ (t.step op).Fits (7 ^ t.1.sites.length * (bound + 2)) := by
  -- A document is queued, and the commit that may be due after it is a commit like any other.
  have pushed : ∀ phase doc, ∃ t' : Session,
      ((Ingestor.push phase doc : Action Error Ingestor Unit).run t.1 t.2).2 = t' ∧
      Onward verbs t t' ∧ t'.Fits (7 ^ t.1.sites.length * (bound + 2)) := by
    intro phase doc
    obtain ⟨r, t₁, ran, onward, fits₁, -⟩ := steady.enqueue (ε := Error) fits phase doc
    rw [← onward.sites] at room ⊢
    have waits : t₁.Fits (7 ^ t₁.1.sites.length * (bound + 2)) := fun e mem => (fits₁ e mem).mono (le_pow_seven_mul _ _)
    obtain ⟨r', ok, t₂, committed, answers, onward', fits₂, -⟩ := onward.steady.commit fits₁ room
    rcases run_push ran (by rw [committed]; exact answers.ne_crash) with same | same
    · exact ⟨t₁, same, onward, waits⟩
    · exact ⟨t₂, by rw [same, committed], onward.trans onward', fits₂⟩
  cases op with
  | ingest doc =>
    obtain ⟨t', ran, onward, fits'⟩ := pushed .add doc
    rw [show t.step (.ingest doc) = t' from ran]
    exact ⟨onward, fits'⟩
  | uningest doc =>
    obtain ⟨t', ran, onward, fits'⟩ := pushed .retract doc
    rw [show t.step (.uningest doc) = t' from ran]
    exact ⟨onward, fits'⟩
  | commit =>
    have wider : t.Fits (bound + 2) := fun e mem => (fits e mem).mono (Nat.le_add_right _ _)
    obtain ⟨r, ok, t', ran, -, onward, fits', -⟩ := steady.commit wider room
    have stepped : t.step .commit = t' := by
      rw [show t.step .commit = (Ingestor.commit.run t.1 t.2).2 from rfl, ran]
    rw [stepped]
    exact ⟨onward, fits'⟩

theorem after {ops : List Op} (steady : Steady verbs t) (light : ∀ done, done <+: ops → (t.after done).Light) :
    Onward verbs t (t.after ops) := by
  induction ops generalizing t with
  | nil => exact .refl steady
  | cons op rest ih =>
    obtain ⟨bound, fits, room⟩ := light [] List.nil_prefix
    obtain ⟨onward, -⟩ := steady.step fits room op
    exact onward.trans (ih onward.steady fun done before => light (op :: done) ((List.prefix_cons_inj op).2 before))

/-- Short runs are light: a call lets no stage come to more than `7 ^ n` times what it came to. -/
theorem light_of_length {ops : List Op} (steady : Steady verbs t) (fits : t.Fits bound)
    (short : 7 ^ (t.1.sites.length * (ops.length + 1)) * (bound + 2 * (ops.length + 1)) < 2 ^ 53) :
    ∀ done, done <+: ops → (t.after done).Light := by
  induction ops generalizing t bound with
  | nil =>
    intro done before
    rw [List.prefix_nil.1 before]
    rw [List.length_nil, Nat.zero_add, Nat.mul_one, Nat.mul_one] at short
    exact ⟨bound, fits, short⟩
  | cons op rest ih =>
    -- One call takes one factor `7 ^ n` and one summand 2 of the bound; the rest is for the other calls.
    rw [List.length_cons, Nat.mul_succ, Nat.pow_add, Nat.mul_assoc] at short
    have first : 7 ^ t.1.sites.length * (bound + 2) < 2 ^ 53 := by
      refine lt_of_le_of_lt ?_ short
      exact (Nat.mul_le_mul_left _ (by omega)).trans (le_pow_seven_mul _ _)
    intro done before
    cases done with
    | nil => exact ⟨bound, fits, first⟩
    | cons op' done =>
      obtain ⟨rfl, later⟩ := List.cons_prefix_cons.1 before
      obtain ⟨onward, fits'⟩ := steady.step fits first op'
      refine ih onward.steady fits' (lt_of_le_of_lt ?_ short) done later
      rw [onward.sites]
      refine Nat.mul_le_mul_left _ ?_
      have grown := le_pow_seven_mul t.1.sites.length (2 * (rest.length + 1))
      rw [show bound + 2 * (rest.length + 1 + 1) = bound + 2 + 2 * (rest.length + 1) by omega,
        Nat.mul_add _ (bound + 2)]
      omega

theorem settled (steady : Steady verbs t) (light : t.Light) (commits : t.Commits) :
    Settled t.1.sites t.1.queues t.2.store (t.step .commit).1.queues (t.step .commit).2.store := by
  obtain ⟨bound, fits, room⟩ := light
  have room : 7 ^ t.1.sites.length * bound < 2 ^ 53 := (Nat.mul_le_mul_left _ (Nat.le_add_right _ _)).trans_lt room
  obtain ⟨r, ok, t', ran, answers, -, -, settled⟩ := steady.commit fits room
  -- Whoever returns normally did all there was to do.
  rw [Session.Commits, ran] at commits
  obtain rfl : r = .ok () := commits
  have well : ok = true := by
    cases ok with
    | true => rfl
    | false =>
      obtain ⟨e, wrong⟩ := answers
      cases wrong
  rw [show t.step .commit = (Ingestor.commit.run t.1 t.2).2 from rfl, ran]
  exact settled well

theorem holds (steady : Steady verbs t) {site : Site} (mem : site ∈ t.1.sites) :
    ∀ key d, (t.2.store.buckets site.scope).get? key = some d → site.stage.Holds verbs key d := by
  rw [← List.map_fst_zip steady.length.ge] at mem
  obtain ⟨e, listed, rfl⟩ := List.mem_map.1 mem
  exact (steady.stocked e listed).holds

/-- Where nothing is left to do, a bucket agrees if it is stored and has no gap. -/
theorem agreesAt_iff (steady : Steady verbs t) (idle : ∀ q ∈ t.1.queues, q = {}) {j : Nat} {parent child : Site}
    (parent_at : t.1.sites[j]? = some parent) (child_at : t.1.sites[j + 1]? = some child) {route : Key → Option Key}
    (merges : Merges verbs parent.stage child.stage route) {key : Key} :
    AgreesAt t.2.store parent child key ↔ key ∈ domain (t.2.store.buckets child.scope) ∧
      ∀ field, Linear child.stage.reduces field → t.gap j parent child route field key = 0 := by
  have none : t.1.queues.getD (j + 1) {} = {} := by
    rw [List.getD_eq_getElem?_getD]
    cases at_ : t.1.queues[j + 1]? with
    | none => rfl
    | some q => exact idle q (List.mem_of_getElem? at_)
  simp only [Session.gap, Ingest.gap, none, due_empty, sub_eq_zero]
  exact Ingest.agreesAt_iff merges (steady.sorted parent.scope) (steady.holds (List.mem_of_getElem? parent_at))
    (steady.holds (List.mem_of_getElem? child_at))

theorem merges_of_adjacent (steady : Steady verbs t) {parent child : Site} (adjacent : [parent, child] <:+: t.1.sites) :
    ∃ j route, t.1.sites[j]? = some parent ∧ t.1.sites[j + 1]? = some child ∧
      Merges verbs parent.stage child.stage route := by
  have pair : Chained verbs [parent.stage, child.stage] := List.IsChain.infix steady.chained (adjacent.map Site.stage)
  obtain ⟨⟨route, merges⟩, -⟩ := List.isChain_cons_cons.1 pair
  obtain ⟨front, back, sites⟩ := adjacent
  exact ⟨front.length, route, by simp [← sites], by simp [← sites], merges⟩

theorem after_commit {ops : List Op} (steady : Steady verbs t) (light : ∀ done, done <+: ops → (t.after done).Light)
    (commits : (t.after ops).Commits) :
    Onward verbs t (t.after (ops ++ [.commit])) ∧ ∀ q ∈ (t.after (ops ++ [.commit])).1.queues, q = {} := by
  have onward := steady.after light
  obtain ⟨bound, fits, room⟩ := light ops (List.prefix_refl ops)
  obtain ⟨committed, -⟩ := onward.steady.step fits room .commit
  rw [Session.after_append]
  exact ⟨onward.trans committed, (onward.steady.settled ⟨bound, fits, room⟩ commits).drained⟩

end Steady

/-- What agrees while nothing is left to do agrees whenever nothing is left to do again. -/
theorem Onward.agreesAt {verbs : List Verb} {t t' : Session} (onward : Onward verbs t t') (steady : Steady verbs t)
    (idle : ∀ q ∈ t.1.queues, q = {}) (idle' : ∀ q ∈ t'.1.queues, q = {}) {parent child : Site}
    (adjacent : [parent, child] <:+: t.1.sites) {key : Key} (spares : t.2.plan.SparesKey child.scope key)
    (agrees : AgreesAt t.2.store parent child key) : AgreesAt t'.2.store parent child key := by
  obtain ⟨j, route, parent_at, child_at, merges⟩ := steady.merges_of_adjacent adjacent
  -- Nothing is queued at either end, so what a bucket is due is what it comes to.
  obtain ⟨stored, gaps⟩ := (steady.agreesAt_iff idle parent_at child_at merges).1 agrees
  refine (onward.steady.agreesAt_iff idle' (onward.sites ▸ parent_at) (onward.sites ▸ child_at) merges).2 ⟨?_, ?_⟩
  · exact onward.grows child (List.mem_of_getElem? child_at) stored
  · intro field linear
    rw [onward.gap parent_at child_at merges spares stored linear]
    exact gaps field linear

theorem Steady.agreesAt_after {verbs : List Verb} {t : Session} (steady : Steady verbs t) {early late : List Op}
    (light : ∀ done, done <+: early ++ .commit :: late → (t.after done).Light) (first : (t.after early).Commits)
    (last : (t.after (early ++ .commit :: late)).Commits) {parent child : Site}
    (adjacent : [parent, child] <:+: t.1.sites) {key : Key} (spares : t.2.plan.SparesKey child.scope key)
    (agrees : AgreesAt (t.after (early ++ [.commit])).2.store parent child key) :
    AgreesAt (t.after (early ++ .commit :: late ++ [.commit])).2.store parent child key := by
  have early_light : ∀ done, done <+: early → (t.after done).Light := fun done before =>
    light done (before.trans (List.prefix_append early _))
  obtain ⟨middle, idle⟩ := steady.after_commit early_light first
  rw [List.append_cons early] at light last ⊢
  have late_light : ∀ done, done <+: late → ((t.after (early ++ [.commit])).after done).Light := fun done before => by
    rw [Session.after_after]
    exact light _ ((List.prefix_append_right_inj _).2 before)
  rw [← Session.after_after] at last
  obtain ⟨onward, idle'⟩ := middle.steady.after_commit late_light last
  rw [List.append_assoc, ← Session.after_after]
  exact onward.agreesAt middle.steady idle idle' (middle.sites ▸ adjacent) (middle.plan ▸ spares) agrees

/-! ## Sessions without failures -/

/-- Every commit of a run returns normally. -/
def Session.Smooth (t : Session) (ops : List Op) : Prop :=
  ∀ done, done ++ [.commit] <+: ops → (t.after done).Commits

theorem Session.smooth_of_not_mem {t : Session} {ops : List Op} (none : .commit ∉ ops) : t.Smooth ops :=
  fun _ before => absurd (before.subset (List.mem_append_right _ List.mem_cons_self)) none

/-- What holds of a session while no commit has failed: the stages behind the root are linked and have
nothing to do. -/
structure Level (verbs : List Verb) (root : Site) (behindSites : List Site) (t : Session) : Prop where
  steady : Steady verbs t
  sites : t.1.sites = root :: behindSites
  queues : ∃ q, t.1.queues = q :: idle behindSites
  linked : Linked verbs t.2.store root.stage (t.2.store.buckets root.scope) behindSites

namespace Level

variable {verbs : List Verb} {root : Site} {behindSites : List Site} {t : Session}
  (level : Level verbs root behindSites t)

include level

theorem commit (light : t.Light) (commits : t.Commits) : Level verbs root behindSites (t.step .commit) := by
  obtain ⟨q, queues⟩ := level.queues
  have settled := level.steady.settled light commits
  obtain ⟨bound, fits, room⟩ := light
  obtain ⟨onward, -⟩ := level.steady.step fits room .commit
  have head : (root, q) ∈ t.1.sites.zip t.1.queues := by
    rw [level.sites, queues]
    exact List.mem_cons_self
  have small : 2 * bound < 2 ^ 53 := by
    rw [level.sites, List.length_cons, Nat.pow_succ, Nat.mul_assoc] at room
    have wider := le_pow_seven_mul behindSites.length (7 * (bound + 2))
    omega
  -- The root has worked off everything, which is a course for the stages behind it to settle.
  rw [level.sites, queues] at settled
  obtain ⟨first, second, _, _, qs', whole, whole', rfl, rfl, drained, later⟩ := settled.inv
  have course := (level.steady.stocked _ head).course whole.subperm whole'.subperm (fits _ head) (by omega)
  obtain ⟨linked, rfl⟩ := level.linked.settled small (level.sites ▸ level.steady.placed) course later
  exact ⟨onward.steady, onward.sites.trans level.sites, ⟨_, drained⟩, linked⟩

/-- A call that does not commit leaves what is stored alone. -/
theorem push (light : t.Light) (manual : t.1.config.autoCommitDisabled = true) (phase : Phase) (doc : Document) :
    ∃ t', (Ingestor.push phase doc : Action Error Ingestor Unit).run t.1 t.2 = (.ok (), t') ∧
      Level verbs root behindSites t' ∧ t'.1.config = t.1.config := by
  obtain ⟨bound, fits, -⟩ := light
  obtain ⟨r, t', queued, onward, -, store, config, q', queues'⟩ := level.steady.enqueue (ε := Error) fits phase doc
  obtain ⟨q, queues⟩ := level.queues
  rw [queues] at queues'
  refine ⟨t', run_push_of_manual queued (config ▸ manual),
    ⟨onward.steady, onward.sites.trans level.sites, ⟨q', queues'⟩, ?_⟩, config⟩
  rw [store]
  exact level.linked

theorem step (light : t.Light) (manual : t.1.config.autoCommitDisabled = true) {op : Op}
    (well : op = .commit → t.Commits) :
    Level verbs root behindSites (t.step op) ∧ (t.step op).1.config = t.1.config := by
  cases op with
  | ingest doc =>
    obtain ⟨t', ran, level', config⟩ := level.push light manual .add doc
    rw [show t.step (.ingest doc) = t' from congrArg Prod.snd ran]
    exact ⟨level', config⟩
  | uningest doc =>
    obtain ⟨t', ran, level', config⟩ := level.push light manual .retract doc
    rw [show t.step (.uningest doc) = t' from congrArg Prod.snd ran]
    exact ⟨level', config⟩
  | commit =>
    refine ⟨level.commit light (well rfl), ?_⟩
    rw [show t.step .commit = (Ingestor.commit.run t.1 t.2).2 from rfl, run_commit_eq]

theorem after {ops : List Op} (light : ∀ done, done <+: ops → (t.after done).Light)
    (manual : t.1.config.autoCommitDisabled = true) (smooth : t.Smooth ops) :
    Level verbs root behindSites (t.after ops) := by
  induction ops generalizing t with
  | nil => exact level
  | cons op rest ih =>
    have well : op = .commit → t.Commits := by
      rintro rfl
      exact smooth [] ⟨rest, rfl⟩
    obtain ⟨level', config⟩ := level.step (light [] List.nil_prefix) manual well
    refine ih level' (fun done before => light (op :: done) ((List.prefix_cons_inj op).2 before)) (config ▸ manual) ?_
    exact fun done before => smooth (op :: done) ((List.prefix_cons_inj op).2 before)

theorem agreesAt {parent child : Site} (adjacent : [parent, child] <:+: t.1.sites) {key : Key} {d : Document}
    (stored : t.2.store.get? child.scope key = some d) : AgreesAt t.2.store parent child key := by
  have head : root ∈ t.1.sites := by
    rw [level.sites]
    exact List.mem_cons_self
  have folds : t.1.sites.IsChain (Folds t.2.store) := by
    rw [level.sites]
    exact isChain_folds level.steady.sorted (level.steady.holds head) level.linked
  have pair : [parent, child].IsChain (Folds t.2.store) := List.IsChain.infix folds adjacent
  obtain ⟨folds, -⟩ := List.isChain_cons_cons.1 pair
  exact ⟨d, stored, folds.count key d stored, fun name mem => folds.merged name mem key d stored⟩

/-- What is stored before a commit fails agrees after the next successful one and after every later one. -/
theorem agreesAt_after {early late : List Op}
    (light : ∀ done, done <+: early ++ .commit :: late → (t.after done).Light) (first : (t.after early).Commits)
    (last : (t.after (early ++ .commit :: late)).Commits) {parent child : Site}
    (adjacent : [parent, child] <:+: t.1.sites) :
    (t.1.config.autoCommitDisabled = true → t.Smooth early → ∀ key d,
      (t.after (early ++ [.commit])).2.store.get? child.scope key = some d →
        AgreesAt (t.after (early ++ [.commit])).2.store parent child key) ∧
    ∀ key, t.2.plan.SparesKey child.scope key → AgreesAt (t.after (early ++ [.commit])).2.store parent child key →
      AgreesAt (t.after (early ++ .commit :: late ++ [.commit])).2.store parent child key := by
  constructor
  · intro manual smooth key d stored
    have before : early <+: early ++ .commit :: late := List.prefix_append early _
    have level' := (level.after (fun done prior => light done (prior.trans before)) manual smooth).commit
      (light early before) first
    rw [Session.after_append] at stored ⊢
    exact level'.agreesAt (level'.sites ▸ level.sites ▸ adjacent) stored
  · exact fun key spares => level.steady.agreesAt_after light first last adjacent spares

end Level

end Ingestor

end Rollup
