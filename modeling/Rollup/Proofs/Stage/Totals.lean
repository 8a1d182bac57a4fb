import Rollup.Proofs.Binary64.Canonical
import Rollup.Proofs.Stage.Aggregate

/-!
# What the columns of a fold hold

A fold of documents holds their totals (`Totals`): counts, tallies and sums, and for a mean the sum and the
number of its values.  That is so where numbers are whole and no total reaches `2 ^ 53` (`Exact`).  Taking
documents out takes their part out of the totals (`Totals.unreduce`).  Breakdowns and the states of unique
counts do not add up: a fold takes each from the first document that has one (`Firsts`).
-/

namespace Rollup

open Document

/-- A whole double is read as the number that it is. -/
theorem wholeField_of_float {d : Document} {field : String} {x : Float} {n : Int}
    (found : d.get? field = some (.float x)) (own : IsWhole x n) : WholeField d field ∧ whole d field = n := by
  have small := own.natAbs_lt
  have read : whole d field = n := by
    rw [whole, integerOr, found, Option.bind_some, Value.int?, own.truncateInt64?]
    exact Int64.toInt_ofInt_of_le (by omega) (by omega)
  refine ⟨?_, read⟩
  rw [WholeField, read, numberOrZero, found]
  exact own

/-! ## Totals on the way -/

namespace Within

variable {field : String} {start : Int} {docs docs' : List Document}

theorem append : Within field start (docs ++ docs') ↔
    Within field start docs ∧ Within field (start + wholeSum docs field) docs' := by
  induction docs generalizing start with
  | nil => simp [Within, wholeSum]
  | cons d rest ih =>
    have regrouped : start + wholeSum (d :: rest) field = start + whole d field + wholeSum rest field := by
      simp [wholeSum, Int.add_assoc]
    rw [List.cons_append, Within, Within, ih, regrouped, and_assoc, and_assoc]

theorem total (within : Within field start docs) (small : start.natAbs < 2 ^ 53) :
    (start + wholeSum docs field).natAbs < 2 ^ 53 := by
  induction docs generalizing start with
  | nil => simpa [wholeSum] using small
  | cons d rest ih =>
    obtain ⟨-, next, within⟩ := within
    have later := ih within next
    rwa [wholeSum, List.map_cons, List.sum_cons, ← Int.add_assoc]

theorem natAbs_wholeSum (within : Within field 0 docs) : (wholeSum docs field).natAbs < 2 ^ 53 := by
  simpa using within.total (by decide)

end Within

/-- Taking a field of documents out of `start`, no value and no rest reaches `2 ^ 53`. -/
def WithinRest (field : String) : Int → List Document → Prop
  | _, [] => True
  | start, d :: rest =>
    (whole d field).natAbs < 2 ^ 53 ∧ (start - whole d field).natAbs < 2 ^ 53 ∧
      WithinRest field (start - whole d field) rest

theorem WithinRest.of_magnitude {docs : List Document} {field : String} {start : Int}
    (small : start.natAbs + magnitude docs field < 2 ^ 53) : WithinRest field start docs := by
  induction docs generalizing start with
  | nil => trivial
  | cons d rest ih =>
    simp only [magnitude, List.map_cons, List.sum_cons] at small ih
    exact ⟨by omega, by omega, ih (by omega)⟩

theorem magnitude_le {docs : List Document} {field : String} {bound : Nat}
    (each : ∀ d ∈ docs, (whole d field).natAbs ≤ bound) : magnitude docs field ≤ docs.length * bound := by
  simpa [magnitude] using List.sum_le_card_nsmul (docs.map fun d => (whole d field).natAbs) bound (by simpa using each)

/-! ## Means -/

namespace Mean

/-- The state of a mean in a document; an empty one where there is none. -/
def stateOrEmpty (name : String) (d : Document) : Document := (state? d name).getD .empty

/-- The states of a mean in documents. -/
def states (docs : List Document) (name : String) : List Document := docs.map (stateOrEmpty name)

/-- A document has the average of values and the state from which it is folded again. -/
structure Recorded (d : Document) (name : String) (sum : Float) (count : Int64) : Prop where
  column : d.get? name = some (.float (average sum count))
  state : state? d name = some (state sum count)

variable {d : Document} {name : String} {sum : Float} {count : Int64} {docs docs' : List Document}

theorem states_cons : states (d :: docs) name = stateOrEmpty name d :: states docs name := rfl

theorem states_append : states (docs ++ docs') name = states docs name ++ states docs' name := List.map_append

theorem read_eq (d : Document) (name : String) :
    read d name = (numberOrZero (stateOrEmpty name d) Field.meanValue,
      integerOr (stateOrEmpty name d) Field.meanCount 0) := by
  rw [read, stateOrEmpty]
  cases state? d name <;> rfl

theorem recorded_write (d : Document) (sum : Float) (count : Int64) (plain : name ≠ Field.intermediate) :
    Recorded (write d name sum count) name sum count where
  column := (get?_insertIn_of_ne _ _ _ plain).trans (get?_insert_self _ _ _)
  state := state?_insertIn_self _ name _

theorem get?_state_value (sum : Float) (count : Int64) : (state sum count).get? Field.meanValue = some (.float sum) :=
  (get?_insert_of_ne _ _ (by decide)).trans (get?_insert_self _ _ _)

theorem get?_state_count (sum : Float) (count : Int64) : (state sum count).get? Field.meanCount = some (.int count) :=
  get?_insert_self _ _ _

theorem Recorded.read (recorded : Recorded d name sum count) : read d name = (sum, count) := by
  rw [read_eq, stateOrEmpty, recorded.state, Option.getD_some, integerOr_of_int (get?_state_count sum count),
    numberOrZero, get?_state_value]
  rfl

/-- Where no value is left, the average is not a number. -/
theorem isNaN_average_zero (sum : Float) : (average sum 0).isNaN = true := by
  rw [average, if_pos rfl]
  rfl

variable {x : Float} {c : Int64} {n m : Int}

/-- The sum and the number of the values that documents stand for. -/
def added (docs : List Document) (name : String) : Float × Int64 :=
  docs.foldl (fun (acc : Float × Int64) d =>
    let (v, c) := Mean.read d name
    (acc.1 + v, Count.add acc.2 c)) (0.0, 0)

/-- Sums and numbers of values add up. -/
theorem foldl_add (docs : List Document) (value : IsProper x n) (number : c.toInt = m)
    (wholes : ∀ s ∈ states docs name, WholeField s Field.meanValue)
    (values : Within Field.meanValue n (states docs name)) (numbers : Within Field.meanCount m (states docs name)) :
    let total := docs.foldl (fun (acc : Float × Int64) d =>
      let (v, c) := Mean.read d name
      (acc.1 + v, Count.add acc.2 c)) (x, c)
    IsProper total.1 (n + wholeSum (states docs name) Field.meanValue) ∧
      total.2.toInt = m + wholeSum (states docs name) Field.meanCount := by
  induction docs generalizing x c n m with
  | nil => simpa [states, wholeSum] using ⟨value, number⟩
  | cons d rest ih =>
    rw [states_cons] at wholes values numbers
    rw [List.forall_mem_cons] at wholes
    obtain ⟨-, small, values⟩ := values
    obtain ⟨-, fewer, numbers⟩ := numbers
    have next : (Count.add c (integerOr (stateOrEmpty name d) Field.meanCount 0)).toInt =
        m + whole (stateOrEmpty name d) Field.meanCount := by
      subst number
      rw [whole] at fewer
      exact Count.toInt_add (by omega) (by omega)
    have added := ih (value.add wholes.1 small) next wholes.2 values numbers
    rw [List.foldl_cons, read_eq]
    simpa only [states, wholeSum, List.map_cons, List.sum_cons, Int.add_assoc] using added

theorem added_eq (wholes : ∀ s ∈ states docs name, WholeField s Field.meanValue)
    (values : Within Field.meanValue 0 (states docs name)) (numbers : Within Field.meanCount 0 (states docs name)) :
    IsProper (added docs name).1 (wholeSum (states docs name) Field.meanValue) ∧
      (added docs name).2.toInt = wholeSum (states docs name) Field.meanCount := by
  have added := foldl_add docs IsProper.zero (c := 0) (m := 0) rfl wholes values numbers
  rwa [Int.zero_add, Int.zero_add] at added

/-- Sums and numbers of values are taken out again. -/
theorem foldl_sub (docs : List Document) (value : IsProper x n) (number : c.toInt = m)
    (wholes : ∀ s ∈ states docs name, WholeField s Field.meanValue)
    (values : WithinRest Field.meanValue n (states docs name))
    (numbers : WithinRest Field.meanCount m (states docs name)) :
    let total := docs.foldl (fun (acc : Float × Int64) d =>
      let (v, c) := Mean.read d name
      (acc.1 - v, Count.sub acc.2 c)) (x, c)
    IsProper total.1 (n - wholeSum (states docs name) Field.meanValue) ∧
      total.2.toInt = m - wholeSum (states docs name) Field.meanCount := by
  induction docs generalizing x c n m with
  | nil => simpa [states, wholeSum] using ⟨value, number⟩
  | cons d rest ih =>
    rw [states_cons] at wholes values numbers
    rw [List.forall_mem_cons] at wholes
    obtain ⟨-, small, values⟩ := values
    obtain ⟨-, fewer, numbers⟩ := numbers
    have next : (Count.sub c (integerOr (stateOrEmpty name d) Field.meanCount 0)).toInt =
        m - whole (stateOrEmpty name d) Field.meanCount := by
      subst number
      rw [whole] at fewer
      exact Count.toInt_sub (by omega) (by omega)
    have left := ih (value.sub wholes.1 small) next wholes.2 values numbers
    rw [List.foldl_cons, read_eq]
    simpa only [states, wholeSum, List.map_cons, List.sum_cons, Int.sub_sub] using left

end Mean

/-! ## Totals of a fold -/

/-- Documents of a stage whose numbers are whole, and of which no total reaches `2 ^ 53` as they are added up. -/
structure Exact (reduces : List Verb) (docs : List Document) : Prop where
  linear : ∀ field, Linear reduces field → Within field 0 docs
  sum : ∀ field name, .sum field name ∈ reduces → (∀ d ∈ docs, WholeField d name) ∧ Within name 0 docs
  mean : ∀ field name, .mean field name ∈ reduces →
    (∀ s ∈ Mean.states docs name, WholeField s Field.meanValue) ∧
      Within Field.meanValue 0 (Mean.states docs name) ∧ Within Field.meanCount 0 (Mean.states docs name)

/-- The numbers in a document of a stage are whole, and none is larger than `bound`. -/
structure Modest (reduces : List Verb) (bound : Nat) (d : Document) : Prop where
  linear : ∀ field, Linear reduces field → (whole d field).natAbs ≤ bound
  sum : ∀ field name, .sum field name ∈ reduces → WholeField d name ∧ (whole d name).natAbs ≤ bound
  mean : ∀ field name, .mean field name ∈ reduces →
    WholeField (Mean.stateOrEmpty name d) Field.meanValue ∧
      (whole (Mean.stateOrEmpty name d) Field.meanValue).natAbs ≤ bound ∧
        (whole (Mean.stateOrEmpty name d) Field.meanCount).natAbs ≤ bound

/-- No total of a few modest documents reaches `2 ^ 53`. -/
theorem Exact.of_modest {reduces : List Verb} {bound : Nat} {docs : List Document}
    (modest : ∀ d ∈ docs, Modest reduces bound d) (few : docs.length * bound < 2 ^ 53) : Exact reduces docs := by
  have within : ∀ {docs' : List Document} {field : String}, docs'.length = docs.length →
      (∀ d ∈ docs', (whole d field).natAbs ≤ bound) → Within field 0 docs' := by
    intro docs' field length each
    have le := magnitude_le each
    rw [length] at le
    exact .of_magnitude (by simpa using Nat.lt_of_le_of_lt le few)
  have states : ∀ name, (Mean.states docs name).length = docs.length := fun name => List.length_map _
  refine ⟨fun field mem => within rfl fun d member => (modest d member).linear field mem, ?_, ?_⟩
  · intro field name mem
    exact ⟨fun d member => ((modest d member).sum field name mem).1,
      within rfl fun d member => ((modest d member).sum field name mem).2⟩
  · intro field name mem
    refine ⟨?_, within (states name) ?_, within (states name) ?_⟩ <;> refine List.forall_mem_map.2 fun d member => ?_
    · exact ((modest d member).mean field name mem).1
    · exact ((modest d member).mean field name mem).2.1
    · exact ((modest d member).mean field name mem).2.2

/-- A document holds the totals of documents. -/
structure Totals (reduces : List Verb) (docs : List Document) (out : Document) : Prop where
  linear : ∀ field, Linear reduces field → whole out field = wholeSum docs field
  sum : ∀ field name, .sum field name ∈ reduces →
    ∃ x, out.get? name = some (.float x) ∧ IsWhole x (wholeSum docs name)
  mean : ∀ field name, .mean field name ∈ reduces → ∃ x c, Mean.Recorded out name x c ∧
    IsProper x (wholeSum (Mean.states docs name) Field.meanValue) ∧
      c.toInt = wholeSum (Mean.states docs name) Field.meanCount

section Totals

variable {slot : String → Nat} {allowed : String → Value → Prop} {stage : Stage} {docs docs' : List Document}
  {out stored : Document}

theorem Exact.left (exact : Exact stage.reduces (docs ++ docs')) : Exact stage.reduces docs where
  linear field mem := (Within.append.1 (exact.linear field mem)).1
  sum field name mem := by
    obtain ⟨wholes, within⟩ := exact.sum field name mem
    exact ⟨(List.forall_mem_append.1 wholes).1, (Within.append.1 within).1⟩
  mean field name mem := by
    obtain ⟨wholes, values, numbers⟩ := exact.mean field name mem
    rw [Mean.states_append] at wholes values numbers
    exact ⟨(List.forall_mem_append.1 wholes).1, (Within.append.1 values).1, (Within.append.1 numbers).1⟩

/-- A fold holds the totals of its documents. -/
theorem Totals.of_reduce? (counting : Counting stage.reduces)
    (readable : ∀ d ∈ docs, Readable slot allowed stage.reduces d) (exact : Exact stage.reduces docs)
    (some_out : stage.reduce? docs = some out) : Totals stage.reduces docs out := by
  have confined := Verb.reduce_confined docs
  refine ⟨fun field mem => whole_reduce? counting readable some_out mem (exact.linear field mem), ?_, ?_⟩
  · intro field name mem
    obtain ⟨filled, rfl⟩ := reduce?_eq some_out
    obtain ⟨wholes, within⟩ := exact.sum field name mem
    obtain ⟨mid, found, -⟩ := counting.turn confined mem rfl (by simp) .empty
    exact ⟨_, found.trans (get?_insert_self mid name _), Verb.isWhole_total wholes within⟩
  · intro field name mem
    obtain ⟨filled, rfl⟩ := reduce?_eq some_out
    obtain ⟨wholes, values, numbers⟩ := exact.mean field name mem
    obtain ⟨mid, found, state, -⟩ := counting.turn confined mem rfl (by simp) .empty
    have own := Mean.recorded_write mid (Mean.added docs name).1 (Mean.added docs name).2
      (counting.apart.ne_intermediate mem rfl)
    exact ⟨_, _, ⟨found.trans own.column, state.trans own.state⟩, Mean.added_eq wholes values numbers⟩

/-- Taking documents out of a fold takes nothing but their part out of its totals. -/
theorem Totals.unreduce (counting : Counting stage.reduces) (aggregate : Aggregate slot allowed stage.reduces stored)
    (totals : Totals stage.reduces (docs ++ docs') stored)
    (readable : ∀ d ∈ docs', Readable slot allowed stage.reduces d)
    (all : Exact stage.reduces (docs ++ docs')) (taken : Exact stage.reduces docs')
    (rests : ∀ field name, .mean field name ∈ stage.reduces →
      WithinRest Field.meanValue (wholeSum (Mean.states (docs ++ docs') name) Field.meanValue)
        (Mean.states docs' name) ∧
      WithinRest Field.meanCount (wholeSum (Mean.states (docs ++ docs') name) Field.meanCount)
        (Mean.states docs' name)) :
    Totals stage.reduces docs (stage.unreduce stored docs') := by
  have confined := Verb.unreduce_confined docs'
  -- What is taken out is part of the total, and so is what is left; both are small enough to be exact.
  constructor
  case linear =>
    intro field mem
    have before := totals.linear field mem
    have whole_small := (all.linear field mem).natAbs_wholeSum
    have left_small := (all.left.linear field mem).natAbs_wholeSum
    rw [wholeSum_append] at before whole_small
    rw [whole_unreduce counting aggregate readable mem (by omega) (taken.linear field mem) (by omega)]
    omega
  case sum =>
    intro field name mem
    obtain ⟨x, column, whole⟩ := totals.sum field name mem
    obtain ⟨wholes, within⟩ := taken.sum field name mem
    obtain ⟨mid, found, -, -, same, -⟩ := counting.turn confined mem rfl (by simp) stored
    have number : numberOrZero mid name = x := by
      rw [numberOrZero, same, column]
      rfl
    refine ⟨x - Verb.total docs' name, found.trans ((get?_insert_self mid name _).trans (by rw [number])), ?_⟩
    have left_small := (all.left.sum field name mem).2.natAbs_wholeSum
    rw [wholeSum_append] at whole
    have rest := whole.sub (Verb.isWhole_total wholes within) (by omega)
    rwa [Int.add_sub_cancel] at rest
  case mean =>
    intro field name mem
    obtain ⟨x, c, recorded, value, number⟩ := totals.mean field name mem
    obtain ⟨wholes, -⟩ := taken.mean field name mem
    obtain ⟨values, numbers⟩ := rests field name mem
    obtain ⟨mid, found, state, -, column, kept⟩ := counting.turn confined mem rfl (by simp) stored
    have read : Mean.read mid name = (x, c) :=
      Mean.Recorded.read ⟨column.trans recorded.column, kept.trans recorded.state⟩
    have left := Mean.foldl_sub docs' value number wholes values numbers
    have plain := counting.apart.ne_intermediate mem rfl
    rw [← read] at left
    simp only [Mean.states_append, wholeSum_append, Int.add_sub_cancel] at left
    exact ⟨_, _, ⟨found.trans (Mean.recorded_write mid _ _ plain).column,
      state.trans (Mean.recorded_write mid _ _ plain).state⟩, left⟩

end Totals

/-! ## What is taken from the first document -/

/-- A document has the breakdowns and the states of unique counts of the first documents that have them. -/
structure Firsts (reduces : List Verb) (docs : List Document) (out : Document) : Prop where
  breakdown : ∀ field name, .brokenDownBy field name ∈ reduces → out.get? name = docs.findSome? (·.get? name)
  state : ∀ field name, .countUniqueValues field name ∈ reduces →
    Mean.state? out name = docs.findSome? (Mean.state? · name)

section Firsts

variable {stage : Stage} {docs docs' : List Document} {out stored : Document}

theorem Firsts.of_reduce? (counting : Counting stage.reduces) (some_out : stage.reduce? docs = some out) :
    Firsts stage.reduces docs out := by
  obtain ⟨filled, rfl⟩ := reduce?_eq some_out
  have confined := Verb.reduce_confined docs
  constructor
  case breakdown =>
    intro field name mem
    obtain ⟨mid, found, -, -, fresh, -⟩ := counting.turn confined mem rfl (by simp) .empty
    rw [found, Verb.reduce]
    split
    · next value first => exact (get?_insert_self mid name value).trans first.symm
    · next none => exact fresh.trans none.symm
  case state =>
    intro field name mem
    obtain ⟨mid, -, state, -, -, fresh⟩ := counting.turn confined mem rfl (by simp) .empty
    have plain := counting.apart.ne_intermediate mem rfl
    rw [state, Verb.reduce]
    simp only [Verb.writePresence_eq]
    split
    · next s first => exact (Mean.state?_insertIn_self _ name s).trans first.symm
    · next none => exact (Mean.state?_insert_of_ne _ _ _ plain).trans (fresh.trans none.symm)

/-- Taking documents out leaves what was taken from the first ones. -/
theorem Firsts.unreduce (counting : Counting stage.reduces) (firsts : Firsts stage.reduces docs stored)
    (taken : List Document) : Firsts stage.reduces docs (stage.unreduce stored taken) := by
  have confined := Verb.unreduce_confined taken
  constructor
  case breakdown =>
    intro field name mem
    obtain ⟨mid, found, -, -, kept, -⟩ := counting.turn confined mem rfl (by simp) stored
    rw [Stage.unreduce, found, Verb.unreduce, kept]
    exact firsts.breakdown field name mem
  case state =>
    intro field name mem
    obtain ⟨mid, -, state, -, -, kept⟩ := counting.turn confined mem rfl (by simp) stored
    have plain := counting.apart.ne_intermediate mem rfl
    rw [Stage.unreduce, state, Verb.unreduce, Verb.writePresence_eq, Mean.state?_insert_of_ne _ _ _ plain, kept]
    exact firsts.state field name mem

end Firsts

end Rollup
