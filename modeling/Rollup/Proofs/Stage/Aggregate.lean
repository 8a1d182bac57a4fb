import Rollup.Proofs.Binary64.Whole
import Rollup.Proofs.Verb.Columns
import Rollup.Stage

/-!
# What a stage folds and stores

`Readable` is what a stage relies on in the documents that it folds, and `Aggregate` what is true of
the documents that it stores.  Counts and tallies add up: `whole_reduce?` and `whole_unreduce` say
so exactly, as long as no total on the way reaches `2 ^ 53` (`Within`), below which doubles are
exact.
-/

namespace Rollup

open Document

/-- The magnitudes of a field over documents, added up. -/
def magnitude (docs : List Document) (field : String) : Nat :=
  (docs.map fun d => (whole d field).natAbs).sum

/-- A field over documents, added up. -/
def wholeSum (docs : List Document) (field : String) : Int := (docs.map fun d => whole d field).sum

theorem magnitude_append (docs docs' : List Document) (field : String) :
    magnitude (docs ++ docs') field = magnitude docs field + magnitude docs' field := by
  rw [magnitude, List.map_append, List.sum_append, magnitude, magnitude]

theorem wholeSum_append (docs docs' : List Document) (field : String) :
    wholeSum (docs ++ docs') field = wholeSum docs field + wholeSum docs' field := by
  rw [wholeSum, List.map_append, List.sum_append, wholeSum, wholeSum]

theorem natAbs_wholeSum_le (docs : List Document) (field : String) :
    (wholeSum docs field).natAbs ≤ magnitude docs field := by
  induction docs with
  | nil => exact Nat.le_refl 0
  | cons d rest ih =>
    simp only [wholeSum, magnitude, List.map_cons, List.sum_cons] at ih ⊢
    omega

theorem wholeSum_of_ones {docs : List Document} {field : String} (ones : ∀ d ∈ docs, whole d field = 1) :
    wholeSum docs field = docs.length := by
  induction docs with
  | nil => rfl
  | cons d rest ih =>
    have later := ih fun e mem => ones e (List.mem_cons_of_mem _ mem)
    rw [wholeSum] at later
    rw [wholeSum, List.map_cons, List.sum_cons, ones d List.mem_cons_self, later, List.length_cons]
    push_cast
    exact Int.add_comm _ _

/-- Adding up a field from `start` on, no value and no total reaches `2 ^ 53`. -/
def Within (field : String) : Int → List Document → Prop
  | _, [] => True
  | start, d :: rest =>
    (whole d field).natAbs < 2 ^ 53 ∧ (start + whole d field).natAbs < 2 ^ 53 ∧
      Within field (start + whole d field) rest

theorem Within.of_magnitude {docs : List Document} {field : String} {start : Int}
    (small : start.natAbs + magnitude docs field < 2 ^ 53) : Within field start docs := by
  induction docs generalizing start with
  | nil => trivial
  | cons d rest ih =>
    simp only [magnitude, List.map_cons, List.sum_cons] at small ih
    exact ⟨by omega, by omega, ih (by omega)⟩

theorem Within.pair {d e : Document} {field : String} (first : (whole d field).natAbs < 2 ^ 53)
    (second : (whole e field).natAbs < 2 ^ 53)
    (both : (whole d field + whole e field).natAbs < 2 ^ 53) : Within field 0 [d, e] := by
  simp only [Within, Int.zero_add]
  exact ⟨first, first, second, both, trivial⟩

/-! ## Counts -/

namespace Count

theorem toInt_add {a b : Int64} (low : -2 ^ 63 ≤ a.toInt + b.toInt) (high : a.toInt + b.toInt < 2 ^ 63) :
    (add a b).toInt = a.toInt + b.toInt := by
  rw [add, IsWhole.clampInt64_eq low high]
  exact Int64.toInt_ofInt_of_le low high

theorem toInt_sub {a b : Int64} (low : -2 ^ 63 ≤ a.toInt - b.toInt) (high : a.toInt - b.toInt < 2 ^ 63) :
    (sub a b).toInt = a.toInt - b.toInt := by
  rw [sub, IsWhole.clampInt64_eq low high]
  exact Int64.toInt_ofInt_of_le low high

theorem contribution_eq {d : Document} (counted : ∃ n, d.get? Field.count = some (.int n)) :
    (contribution d).toInt = whole d Field.count := by
  obtain ⟨n, found⟩ := counted
  rw [contribution, integerOr_of_int found, whole_of_int found]

theorem toInt_foldl_add (docs : List Document)
    (counted : ∀ d ∈ docs, ∃ n, d.get? Field.count = some (.int n)) (start : Int64)
    (within : Within Field.count start.toInt docs) :
    (docs.foldl (fun n d => add n (contribution d)) start).toInt =
      start.toInt + wholeSum docs Field.count := by
  induction docs generalizing start with
  | nil => exact (Int.add_zero _).symm
  | cons d rest ih =>
    obtain ⟨-, total, within⟩ := within
    have own := contribution_eq (counted d List.mem_cons_self)
    have next : (add start (contribution d)).toInt = start.toInt + whole d Field.count := by
      rw [toInt_add (by omega) (by omega), own]
    rw [← next] at within
    rw [List.foldl_cons, ih (fun e member => counted e (List.mem_cons_of_mem _ member)) _ within, next,
      wholeSum, wholeSum, List.map_cons, List.sum_cons, Int.add_assoc]

/-- Counts add up. -/
theorem toInt_total {docs : List Document}
    (counted : ∀ d ∈ docs, ∃ n, d.get? Field.count = some (.int n))
    (within : Within Field.count 0 docs) : (total docs).toInt = wholeSum docs Field.count := by
  rw [total, toInt_foldl_add docs counted 0 within]
  exact Int.zero_add _

end Count

/-! ## Tallies -/

/-- The number in a field is exactly the whole number that is read there. -/
def WholeField (d : Document) (field : String) : Prop := IsWhole (numberOrZero d field) (whole d field)

/-- A field that holds a whole number, if anything. -/
def IntField (d : Document) (field : String) : Prop :=
  d.get? field = none ∨ ∃ n, d.get? field = some (.int n)

theorem IntField.isWhole {d : Document} {field : String} (int : IntField d field)
    (small : (whole d field).natAbs < 2 ^ 53) : WholeField d field := by
  rw [WholeField]
  rcases int with missing | ⟨n, found⟩
  · rw [whole_of_none missing, numberOrZero, missing]
    exact IsWhole.zero
  · rw [whole_of_int found] at small ⊢
    rw [numberOrZero, found]
    exact IsWhole.nearestFloat small

theorem isWhole_of_ints {docs : List Document} {field : String} {start : Int}
    (ints : ∀ d ∈ docs, IntField d field) (within : Within field start docs) : ∀ d ∈ docs, WholeField d field := by
  induction docs generalizing start with
  | nil => simp
  | cons d rest ih =>
    obtain ⟨value, -, within⟩ := within
    rw [List.forall_mem_cons] at ints ⊢
    exact ⟨ints.1.isWhole value, ih ints.2 within⟩

namespace Verb

theorem isWhole_foldl_add (docs : List Document) {field : String}
    (wholes : ∀ d ∈ docs, WholeField d field) {start : Float} {n : Int} (whole : IsWhole start n)
    (within : Within field n docs) :
    IsWhole (docs.foldl (fun acc d => acc + numberOrZero d field) start) (n + wholeSum docs field) := by
  induction docs generalizing start n with
  | nil =>
    rw [wholeSum, List.map_nil, List.sum_nil, Int.add_zero]
    exact whole
  | cons d rest ih =>
    obtain ⟨-, total, within⟩ := within
    rw [List.forall_mem_cons] at wholes
    have rested := ih wholes.2 (whole.add wholes.1 total) within
    rw [wholeSum, List.map_cons, List.sum_cons, ← Int.add_assoc]
    exact rested

/-- Sums of whole numbers are exact. -/
theorem isWhole_total {docs : List Document} {field : String} (wholes : ∀ d ∈ docs, WholeField d field)
    (within : Within field 0 docs) : IsWhole (total docs field) (wholeSum docs field) := by
  have added := isWhole_foldl_add docs wholes IsWhole.negZero within
  rwa [Int.zero_add] at added

end Verb

theorem toInt_roundToInt64 {x : Float} {n : Int} (whole : IsWhole x n) :
    (roundToInt64 x).toInt = n := by
  have small := whole.natAbs_lt
  rw [whole.roundToInt64]
  exact Int64.toInt_ofInt_of_le (by omega) (by omega)

/-! ## Documents of a stage -/

/-- The fields of a stage that add up: the count, and the tallies of unique counts. -/
def Linear (reduces : List Verb) (field : String) : Prop :=
  field = Field.count ∨ .uniqueTally field ∈ reduces

/-- What folding relies on: counts and tallies are whole numbers, the state of a unique count tells
its slot, and a breakdown has an allowed value. -/
structure Readable (slot : String → Nat) (allowed : String → Value → Prop) (reduces : List Verb)
    (d : Document) : Prop where
  count : ∃ n, d.get? Field.count = some (.int n)
  tally : ∀ name, .uniqueTally name ∈ reduces → IntField d name
  state : ∀ field name, .countUniqueValues field name ∈ reduces →
    Mean.state? d name = some (Verb.slotState (slot name))
  breakdown : ∀ field name, .brokenDownBy field name ∈ reduces →
    ∃ v, d.get? name = some v ∧ allowed name v

/-- What is true of stored documents: every tally is there, and a unique count tells whether
anything counts toward the bucket. -/
structure Aggregate (slot : String → Nat) (allowed : String → Value → Prop) (reduces : List Verb)
    (d : Document) : Prop extends Readable slot allowed reduces d where
  tallied : ∀ name, .uniqueTally name ∈ reduces → ∃ n, d.get? name = some (.int n)
  presence : ∀ field name, .countUniqueValues field name ∈ reduces →
    d.get? name = some (.int (if 0 < whole d Field.count then 1 else 0))

theorem Readable.mono {slot : String → Nat} {allowed allowed' : String → Value → Prop}
    {reduces : List Verb} {d : Document} (readable : Readable slot allowed reduces d)
    (weaker : ∀ name value, allowed name value → allowed' name value) :
    Readable slot allowed' reduces d where
  count := readable.count
  tally := readable.tally
  state := readable.state
  breakdown field name mem := by
    obtain ⟨value, found, ok⟩ := readable.breakdown field name mem
    exact ⟨value, found, weaker name value ok⟩

theorem Readable.intField {slot : String → Nat} {allowed : String → Value → Prop}
    {reduces : List Verb} {d : Document} (readable : Readable slot allowed reduces d)
    {field : String} (linear : Linear reduces field) : IntField d field := by
  rcases linear with rfl | tally
  · exact .inr readable.count
  · exact readable.tally field tally

/-- The verbs of a stage that fold: documents are counted first, and fields are kept apart. -/
structure Counting (reduces : List Verb) : Prop where
  head : ∃ rest, reduces = .countDocuments :: rest
  apart : Verb.Apart reduces

namespace Counting

variable {reduces : List Verb}

theorem count_mem (counting : Counting reduces) : .countDocuments ∈ reduces := by
  obtain ⟨rest, rfl⟩ := counting.head
  exact List.mem_cons_self

/-- When the turn of another verb comes, the count has its final value. -/
theorem turn {act : Document → Verb → Document} (confined : Verb.Confined id act)
    (counting : Counting reduces) {v : Verb} {name : String} (mem : v ∈ reduces)
    (owns : v.field? = some name) (other : v ≠ .countDocuments) (d : Document) :
    ∃ mid, (reduces.foldl act d).get? name = (act mid v).get? name ∧
      Mean.state? (reduces.foldl act d) name = Mean.state? (act mid v) name ∧
      mid.get? Field.count = (reduces.foldl act d).get? Field.count ∧
      mid.get? name = d.get? name ∧ Mean.state? mid name = Mean.state? d name := by
  obtain ⟨rest, rfl⟩ := counting.head
  obtain ⟨before, after, split, first, field, state⟩ :=
    confined.foldl_turn counting.apart mem owns d
  have plain := counting.apart.ne_intermediate mem owns
  have hidden : ∀ u ∈ before, u.field? ≠ some Field.intermediate := by
    intro u member
    exact counting.apart.field?_ne_intermediate (by rw [split]; exact List.mem_append_left _ member)
  refine ⟨before.foldl act d, field, state, ?_, confined.foldl_get? first plain d,
    confined.foldl_state? first hidden d⟩
  -- The count is folded first, and no verb after it writes its field.
  cases before with
  | nil =>
    rw [List.nil_append, List.cons.injEq] at split
    exact absurd split.1.symm other
  | cons first tail =>
    rw [List.cons_append] at split
    obtain ⟨rfl, rfl⟩ := List.cons.inj split
    have nodup := counting.apart.nodup
    rw [List.filterMap_cons] at nodup
    have fresh := (List.nodup_cons.1 nodup).1
    have others : ∀ u ∈ tail ++ v :: after, u.field? ≠ some Field.count :=
      fun u member same => fresh (List.mem_filterMap.2 ⟨u, member, same⟩)
    have early : ∀ u ∈ tail, u.field? ≠ some Field.count :=
      fun u member => others u (List.mem_append_left _ member)
    have upTo := confined.foldl_get? early (by decide) (act d .countDocuments)
    have through := confined.foldl_get? others (by decide) (act d .countDocuments)
    exact upTo.trans through.symm

theorem get?_count {act : Document → Verb → Document} (confined : Verb.Confined id act)
    (counting : Counting reduces) (d : Document) :
    (reduces.foldl act d).get? Field.count = (act d .countDocuments).get? Field.count := by
  obtain ⟨rest, rfl⟩ := counting.head
  have nodup := counting.apart.nodup
  rw [List.filterMap_cons] at nodup
  have fresh := (List.nodup_cons.1 nodup).1
  rw [List.foldl_cons]
  exact confined.foldl_get? (fun u member same => fresh (List.mem_filterMap.2 ⟨u, member, same⟩))
    (by decide) _

end Counting

/-! ## Folding -/

section Folding

variable {slot : String → Nat} {allowed : String → Value → Prop} {stage : Stage} {docs : List Document}
  {out : Document}

theorem reduce?_eq (some_out : stage.reduce? docs = some out) :
    docs ≠ [] ∧ out = stage.reduces.foldl (Verb.reduce docs) .empty := by
  rw [Stage.reduce?] at some_out
  split at some_out
  · cases some_out
  · next filled =>
    rw [List.isEmpty_iff] at filled
    exact ⟨filled, (Option.some.inj some_out).symm⟩

theorem reduce?_isSome (stage : Stage) {docs : List Document} (filled : docs ≠ []) :
    ∃ out, stage.reduce? docs = some out := by
  rw [Stage.reduce?, if_neg (by simpa using filled)]
  exact ⟨_, rfl⟩

/-- A value that all documents have is found in the first. -/
theorem findSome?_exists {α β : Type} {f : α → Option β} {p : β → Prop} {xs : List α}
    (filled : xs ≠ []) (each : ∀ x ∈ xs, ∃ y, f x = some y ∧ p y) :
    ∃ y, xs.findSome? f = some y ∧ p y := by
  cases xs with
  | nil => exact absurd rfl filled
  | cons x rest =>
    obtain ⟨y, found, ok⟩ := each x List.mem_cons_self
    exact ⟨y, by rw [List.findSome?_cons, found], ok⟩

/-- Folding documents gives an aggregate. -/
theorem Aggregate.of_reduce? (counting : Counting stage.reduces)
    (readable : ∀ d ∈ docs, Readable slot allowed stage.reduces d)
    (some_out : stage.reduce? docs = some out) : Aggregate slot allowed stage.reduces out := by
  obtain ⟨filled, rfl⟩ := reduce?_eq some_out
  have confined := Verb.reduce_confined docs
  have tallied : ∀ name, .uniqueTally name ∈ stage.reduces →
      ∃ n, (stage.reduces.foldl (Verb.reduce docs) .empty).get? name = some (.int n) := by
    intro name mem
    obtain ⟨mid, field, -⟩ := counting.turn confined mem rfl (by simp) .empty
    exact ⟨_, field.trans (get?_insert_self mid name _)⟩
  refine { count := ?_, tally := ?_, state := ?_, breakdown := ?_, tallied, presence := ?_ }
  · exact ⟨_, (counting.get?_count confined .empty).trans (get?_insert_self _ _ _)⟩
  · exact fun name mem => .inr (tallied name mem)
  · intro field name mem
    obtain ⟨mid, -, state, -⟩ := counting.turn confined mem rfl (by simp) .empty
    obtain ⟨s, found, rfl⟩ := findSome?_exists (p := (· = Verb.slotState (slot name))) filled
      fun d member => ⟨_, (readable d member).state field name mem, rfl⟩
    rw [state, Verb.reduce, found]
    exact Mean.state?_insertIn_self _ name _
  · intro field name mem
    obtain ⟨mid, found, -⟩ := counting.turn confined mem rfl (by simp) .empty
    obtain ⟨v, first, ok⟩ := findSome?_exists filled
      fun d member => (readable d member).breakdown field name mem
    refine ⟨v, ?_, ok⟩
    rw [found, Verb.reduce, first]
    exact get?_insert_self mid name v
  · intro field name mem
    obtain ⟨mid, found, -, same, -⟩ := counting.turn confined mem rfl (by simp) .empty
    obtain ⟨s, state, -⟩ := findSome?_exists (p := (· = Verb.slotState (slot name))) filled
      fun d member => ⟨_, (readable d member).state field name mem, rfl⟩
    have plain := counting.apart.ne_intermediate mem rfl
    rw [found, Verb.reduce, state, Verb.writePresence_eq, whole_congr same]
    exact (get?_insertIn_of_ne _ _ _ plain).trans (get?_insert_self mid name _)

/-- Counts and tallies of an aggregate are those of its documents, added up. -/
theorem whole_reduce? (counting : Counting stage.reduces)
    (readable : ∀ d ∈ docs, Readable slot allowed stage.reduces d)
    (some_out : stage.reduce? docs = some out) {field : String} (linear : Linear stage.reduces field)
    (within : Within field 0 docs) : whole out field = wholeSum docs field := by
  obtain ⟨filled, rfl⟩ := reduce?_eq some_out
  have confined := Verb.reduce_confined docs
  rcases linear with rfl | mem
  · have found : (stage.reduces.foldl (Verb.reduce docs) .empty).get? Field.count =
        some (.int (Count.total docs)) :=
      (counting.get?_count confined .empty).trans (get?_insert_self _ _ _)
    rw [whole_of_int found]
    exact Count.toInt_total (fun d member => (readable d member).count) within
  · obtain ⟨mid, found, -⟩ := counting.turn confined mem rfl (by simp) .empty
    rw [whole_of_int (found.trans (get?_insert_self mid field _))]
    have wholes := isWhole_of_ints (fun d member => (readable d member).tally field mem) within
    exact toInt_roundToInt64 (Verb.isWhole_total wholes within)

end Folding

/-! ## Taking out -/

section TakingOut

variable {slot : String → Nat} {allowed : String → Value → Prop} {stage : Stage}
  {stored : Document} {docs : List Document}

/-- Taking documents out of an aggregate leaves an aggregate. -/
theorem Aggregate.unreduce (counting : Counting stage.reduces)
    (aggregate : Aggregate slot allowed stage.reduces stored) (docs : List Document) :
    Aggregate slot allowed stage.reduces (stage.unreduce stored docs) := by
  have confined := Verb.unreduce_confined docs
  have tallied : ∀ name, .uniqueTally name ∈ stage.reduces →
      ∃ n, (stage.unreduce stored docs).get? name = some (.int n) := by
    intro name mem
    obtain ⟨mid, field, -⟩ := counting.turn confined mem rfl (by simp) stored
    exact ⟨_, field.trans (get?_insert_self mid name _)⟩
  refine { count := ?_, tally := ?_, state := ?_, breakdown := ?_, tallied, presence := ?_ }
  · exact ⟨_, (counting.get?_count confined stored).trans (get?_insert_self _ _ _)⟩
  · exact fun name mem => .inr (tallied name mem)
  · intro field name mem
    obtain ⟨mid, -, state, -, -, kept⟩ := counting.turn confined mem rfl (by simp) stored
    have plain := counting.apart.ne_intermediate mem rfl
    rw [Stage.unreduce, state, Verb.unreduce, Verb.writePresence_eq,
      Mean.state?_insert_of_ne _ _ _ plain, kept]
    exact aggregate.state field name mem
  · intro field name mem
    obtain ⟨mid, found, -, -, kept, -⟩ := counting.turn confined mem rfl (by simp) stored
    rw [Stage.unreduce, found, Verb.unreduce, kept]
    exact aggregate.breakdown field name mem
  · intro field name mem
    obtain ⟨mid, found, -, same, -⟩ := counting.turn confined mem rfl (by simp) stored
    rw [Stage.unreduce, found, Verb.unreduce, Verb.writePresence_eq, whole_congr same]
    exact get?_insert_self mid name _

/-- Taking documents out subtracts their counts and tallies. -/
theorem whole_unreduce (counting : Counting stage.reduces)
    (aggregate : Aggregate slot allowed stage.reduces stored)
    (readable : ∀ d ∈ docs, Readable slot allowed stage.reduces d) {field : String}
    (linear : Linear stage.reduces field) (kept : (whole stored field).natAbs < 2 ^ 53)
    (within : Within field 0 docs)
    (left : (whole stored field - wholeSum docs field).natAbs < 2 ^ 53) :
    whole (stage.unreduce stored docs) field = whole stored field - wholeSum docs field := by
  have confined := Verb.unreduce_confined docs
  rcases linear with rfl | mem
  · obtain ⟨n, stored_eq⟩ := aggregate.count
    have total := Count.toInt_total (fun d member => (readable d member).count) within
    have found : (stage.unreduce stored docs).get? Field.count = some (.int (Count.sub n (Count.total docs))) := by
      rw [← integerOr_of_int stored_eq 0]
      exact (counting.get?_count confined stored).trans (get?_insert_self _ _ _)
    rw [whole_of_int stored_eq] at left ⊢
    rw [whole_of_int found, Count.toInt_sub (by omega) (by omega), total]
  · obtain ⟨mid, found, -, -, same, -⟩ := counting.turn confined mem rfl (by simp) stored
    rw [Stage.unreduce, whole_of_int (found.trans (get?_insert_self mid field _))]
    have before : IsWhole (numberOrZero mid field) (whole stored field) := by
      rw [numberOrZero_congr same]
      exact (aggregate.intField (.inr mem)).isWhole kept
    have wholes := isWhole_of_ints (fun d member => (readable d member).tally field mem) within
    exact toInt_roundToInt64 (before.sub (Verb.isWhole_total wholes within) left)

end TakingOut

end Rollup
