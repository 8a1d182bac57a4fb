import Rollup.Proofs.Lineage
import Rollup.Proofs.Stage.Totals

/-!
# Retraction undoes addition

Of a fold of documents, taking some of them out leaves the fold of the others (`retraction_undoes_addition`): the
same counts, unique counts, breakdowns and means, and equal sums.  Where none is left the columns are those of
nothing (`Blank`).  The argument is that both sides hold the totals of the documents that are left, and that
these determine an aggregate (`Agree.of_totals`).
-/

namespace Rollup

open Document

/-- Two aggregates of documents tell the same.  Sums are equal as doubles are, and so may differ in the sign of
a zero; averages are the same, and not a number where there is no value. -/
structure Agree (reduces : List Verb) (docs : List Document) (d e : Document) : Prop where
  count : ∃ n, d.get? Field.count = some (.int n) ∧ e.get? Field.count = some (.int n)
  unique : ∀ field name, .countUniqueValues field name ∈ reduces →
    ∃ n, d.get? name = some (.int n) ∧ e.get? name = some (.int n)
  tally : ∀ name, .uniqueTally name ∈ reduces → ∃ n, d.get? name = some (.int n) ∧ e.get? name = some (.int n)
  state : ∀ field name, .countUniqueValues field name ∈ reduces →
    ∃ slot, Mean.state? d name = some (Verb.slotState slot) ∧ Mean.state? e name = some (Verb.slotState slot)
  breakdown : ∀ field name, .brokenDownBy field name ∈ reduces →
    ∃ v, d.get? name = some v ∧ e.get? name = some v
  sum : ∀ field name, .sum field name ∈ reduces →
    ∃ x y, d.get? name = some (.float x) ∧ e.get? name = some (.float y) ∧ (x == y) = true
  mean : ∀ field name, .mean field name ∈ reduces → ∃ x c, Mean.Recorded d name x c ∧ Mean.Recorded e name x c ∧
    c.toInt = wholeSum (Mean.states docs name) Field.meanCount ∧ (c = 0 → (Mean.average x c).isNaN = true)

/-- The columns of an aggregate of nothing. -/
structure Blank (reduces : List Verb) (d : Document) : Prop where
  count : d.get? Field.count = some (.int 0)
  unique : ∀ field name, .countUniqueValues field name ∈ reduces → d.get? name = some (.int 0)
  tally : ∀ name, .uniqueTally name ∈ reduces → d.get? name = some (.int 0)
  sum : ∀ field name, .sum field name ∈ reduces → ∃ x, d.get? name = some (.float x) ∧ (x == 0.0) = true
  mean : ∀ field name, .mean field name ∈ reduces → ∃ x, d.get? name = some (.float x) ∧ x.isNaN = true

/-- Documents that are folded, and the last of which are taken out again: numbers are whole, and no total on the
way reaches `2 ^ 53`. -/
structure Retractable (reduces : List Verb) (kept taken : List Document) : Prop where
  all : Exact reduces (kept ++ taken)
  out : Exact reduces taken
  rests : ∀ field name, .mean field name ∈ reduces →
    WithinRest Field.meanValue (wholeSum (Mean.states (kept ++ taken) name) Field.meanValue)
        (Mean.states taken name) ∧
      WithinRest Field.meanCount (wholeSum (Mean.states (kept ++ taken) name) Field.meanCount)
        (Mean.states taken name)

/-- No total on the way reaches `2 ^ 53` where a few modest documents are folded. -/
theorem Retractable.of_modest {reduces : List Verb} {bound : Nat} {kept taken : List Document}
    (modest : ∀ d ∈ kept ++ taken, Modest reduces bound d)
    (few : ((kept ++ taken).length + taken.length) * bound < 2 ^ 53) : Retractable reduces kept taken := by
  rw [Nat.add_mul] at few
  have rests : ∀ name field,
      (∀ d ∈ kept ++ taken, (whole (Mean.stateOrEmpty name d) field).natAbs ≤ bound) →
      WithinRest field (wholeSum (Mean.states (kept ++ taken) name) field) (Mean.states taken name) := by
    intro name field each
    have all := magnitude_le (List.forall_mem_map.2 each)
    have out := magnitude_le (List.forall_mem_map.2 fun d mem => each d (List.mem_append_right _ mem))
    have total := natAbs_wholeSum_le (Mean.states (kept ++ taken) name) field
    rw [List.length_map] at all out
    refine .of_magnitude ?_
    rw [Mean.states] at total ⊢
    rw [Mean.states]
    omega
  refine ⟨.of_modest modest (by omega), .of_modest (fun d mem => modest d (List.mem_append_right _ mem)) (by omega), ?_⟩
  exact fun field name mem => ⟨rests name _ fun d member => ((modest d member).mean field name mem).2.1,
    rests name _ fun d member => ((modest d member).mean field name mem).2.2⟩

section Determined

variable {slot : String → Nat} {allowed : String → Value → Prop} {reduces : List Verb} {docs : List Document}
  {d e : Document}

theorem exists_int_of_whole {field : String} (found : ∃ n, d.get? field = some (.int n))
    (found' : ∃ n, e.get? field = some (.int n)) (same : whole d field = whole e field) :
    ∃ n, d.get? field = some (.int n) ∧ e.get? field = some (.int n) := by
  obtain ⟨n, found⟩ := found
  obtain ⟨m, found'⟩ := found'
  rw [whole_of_int found, whole_of_int found', Int64.toInt_inj] at same
  exact ⟨n, found, same ▸ found'⟩

/-- Aggregates that hold the totals of the same documents agree, if their breakdowns do. -/
theorem Agree.of_totals (left : Aggregate slot allowed reduces d) (right : Aggregate slot allowed reduces e)
    (totals : Totals reduces docs d) (totals' : Totals reduces docs e)
    (breakdowns : ∀ field name, .brokenDownBy field name ∈ reduces → d.get? name = e.get? name) :
    Agree reduces docs d e := by
  have linear : ∀ field, Linear reduces field → whole d field = whole e field := fun field mem =>
    (totals.linear field mem).trans (totals'.linear field mem).symm
  -- Counts and tallies are whole numbers and so the same; sums may differ by the sign of zero.
  constructor
  case count => exact exists_int_of_whole left.count right.count (linear _ (.inl rfl))
  case unique =>
    intro field name mem
    rw [left.presence field name mem, right.presence field name mem, linear _ (.inl rfl)]
    exact ⟨_, rfl, rfl⟩
  case tally =>
    intro name mem
    exact exists_int_of_whole (left.tallied name mem) (right.tallied name mem) (linear _ (.inr mem))
  case state => exact fun field name mem => ⟨slot name, left.state field name mem, right.state field name mem⟩
  case breakdown =>
    intro field name mem
    obtain ⟨v, found, -⟩ := left.breakdown field name mem
    exact ⟨v, found, breakdowns field name mem ▸ found⟩
  case sum =>
    intro field name mem
    obtain ⟨x, found, whole⟩ := totals.sum field name mem
    obtain ⟨y, found', whole'⟩ := totals'.sum field name mem
    exact ⟨x, y, found, found', whole.beq whole'⟩
  case mean =>
    intro field name mem
    obtain ⟨x, c, recorded, value, number⟩ := totals.mean field name mem
    obtain ⟨y, k, recorded', value', number'⟩ := totals'.mean field name mem
    obtain rfl := value.eq value'
    obtain rfl : c = k := Int64.toInt_inj.1 (number.trans number'.symm)
    refine ⟨x, c, recorded, recorded', number, ?_⟩
    rintro rfl
    exact Mean.isNaN_average_zero x

/-- An aggregate that holds the totals of no documents is blank. -/
theorem Blank.of_totals (aggregate : Aggregate slot allowed reduces d) (totals : Totals reduces [] d) :
    Blank reduces d := by
  have zero : ∀ field, Linear reduces field → (∃ n, d.get? field = some (.int n)) → d.get? field = some (.int 0) := by
    rintro field mem ⟨n, found⟩
    have none : n.toInt = (0 : Int64).toInt := (whole_of_int found).symm.trans (totals.linear field mem)
    rw [found, Int64.toInt_inj.1 none]
  constructor
  case count => exact zero _ (.inl rfl) aggregate.count
  case unique =>
    intro field name mem
    rw [aggregate.presence field name mem, totals.linear _ (.inl rfl)]
    rfl
  case tally => exact fun name mem => zero _ (.inr mem) (aggregate.tallied name mem)
  case sum =>
    intro field name mem
    obtain ⟨x, found, whole⟩ := totals.sum field name mem
    exact ⟨x, found, whole.beq IsWhole.zero⟩
  case mean =>
    intro field name mem
    obtain ⟨x, c, recorded, -, number⟩ := totals.mean field name mem
    obtain rfl : c = 0 := Int64.toInt_inj.1 number
    exact ⟨_, recorded.column, Mean.isNaN_average_zero x⟩

end Determined

/-- Breakdowns are taken from the first documents, which the others come behind. -/
theorem breakdown_append {slot : String → Nat} {allowed : String → Value → Prop} {reduces : List Verb}
    {docs docs' : List Document} {d e : Document} (filled : docs ≠ [])
    (readable : ∀ d ∈ docs, Readable slot allowed reduces d) (firsts : Firsts reduces (docs ++ docs') d)
    (firsts' : Firsts reduces docs e) {field name : String} (mem : .brokenDownBy field name ∈ reduces) :
    d.get? name = e.get? name := by
  obtain ⟨v, found, -⟩ := findSome?_exists filled fun d member => (readable d member).breakdown field name mem
  rw [firsts.breakdown field name mem, firsts'.breakdown field name mem, List.findSome?_append, found, Option.some_or]

namespace Pipeline

variable {verbs : List Verb} {n : Nat} {stage : Stage} {key : Key} {kept taken : List Document}

/-- In every stage, taking documents out of a fold of documents that its map emitted under one key leaves the
fold of the others. -/
theorem retraction_undoes_addition (apart : ColumnsApart verbs) (at_ : (ofVerbs verbs).stages[n]? = some stage)
    (emitted : ∀ d ∈ kept ++ taken, (ofVerbs verbs).Emits n key d) (filled : kept ++ taken ≠ [])
    (exact_ : Retractable stage.reduces kept taken) :
    ∃ all, stage.reduce? (kept ++ taken) = some all ∧
      (kept ≠ [] → ∃ rest, stage.reduce? kept = some rest ∧
        Agree stage.reduces kept (stage.unreduce all taken) rest) ∧
      (kept = [] → Blank stage.reduces (stage.unreduce all taken)) := by
  have counting := counting_of_stage apart at_
  have readable : ∀ d ∈ kept ++ taken, stage.Reads (composition verbs) key d :=
    fun d mem => reads_of_emits apart at_ (emitted d mem)
  have readable_kept : ∀ d ∈ kept, stage.Reads (composition verbs) key d :=
    fun d mem => readable d (List.mem_append_left _ mem)
  have readable_taken : ∀ d ∈ taken, stage.Reads (composition verbs) key d :=
    fun d mem => readable d (List.mem_append_right _ mem)
  obtain ⟨all, folded⟩ := reduce?_isSome stage filled
  have stored := Aggregate.of_reduce? counting readable folded
  have left := stored.unreduce counting taken
  -- Both sides hold the totals of the documents that are kept.
  have totals := (Totals.of_reduce? counting readable exact_.all folded).unreduce counting stored readable_taken
    exact_.all exact_.out exact_.rests
  refine ⟨all, folded, fun some_ => ?_, ?_⟩
  · obtain ⟨rest, folded'⟩ := reduce?_isSome stage some_
    have aggregate := Aggregate.of_reduce? counting readable_kept folded'
    have totals' := Totals.of_reduce? counting readable_kept exact_.all.left folded'
    have firsts := (Firsts.of_reduce? counting folded).unreduce counting taken
    have firsts' := Firsts.of_reduce? counting folded'
    exact ⟨rest, folded', .of_totals left aggregate totals totals' fun field name mem =>
      breakdown_append some_ readable_kept firsts firsts' mem⟩
  · rintro rfl
    exact .of_totals left totals

set_option maxRecDepth 4000 in
/-- One of two events is retracted. -/
theorem retraction_undoes_addition_of_two :
    let verbs : List Verb := [.brokenDownBy "a" "A", .sum "n" "N", .mean "n" "M", .countUniqueValues "u" "U"]
    let entry (n : Int64) : Document := ⟨[("A", .text "x"), ("Count", .int 1),
      ("M", .float (Mean.average (nearestFloat n.toInt) 1)), ("N", .float (nearestFloat n.toInt)), ("U", .int 1),
      ("_intermediate", .map ⟨[("M", .map (Mean.state (nearestFloat n.toInt) 1)),
        ("U", .map (Verb.slotState 1))]⟩)]⟩
    let stage := (ofVerbs verbs).root
    ∃ all, stage.reduce? [entry 5, entry 3] = some all ∧
      ∃ rest, stage.reduce? [entry 5] = some rest ∧
        Agree stage.reduces [entry 5] (stage.unreduce all [entry 3]) rest := by
  intro verbs entry stage
  have apart : ColumnsApart verbs := ⟨by decide, by decide⟩
  have made : ∀ n : Int64, stage.map? ⟨[("a", .text "x"), ("n", .int n), ("u", .text "y")]⟩ =
      some (⟨[.text "x", .text "y"]⟩, entry n) := fun n => rfl
  have emitted : ∀ d ∈ [entry 5] ++ [entry 3], (ofVerbs verbs).Emits 0 ⟨[.text "x", .text "y"]⟩ d :=
    List.forall_mem_cons.2 ⟨⟨_, made 5⟩, List.forall_mem_singleton.2 ⟨_, made 3⟩⟩
  have reduces : stage.reduces =
      [.countDocuments, .brokenDownBy "a" "A", .sum "n" "N", .mean "n" "M", .countUniqueValues "u" "U"] := by decide
  have modest : ∀ n : Int64, n.toInt.natAbs ≤ 5 → Modest stage.reduces 5 (entry n) := by
    intro n small
    have whole_n : IsWhole (nearestFloat n.toInt) n.toInt := IsWhole.nearestFloat (by omega)
    rw [reduces]
    constructor
    case linear =>
      rintro field (rfl | mem)
      · show (1 : Int64).toInt.natAbs ≤ 5
        decide
      · simp at mem
    case sum =>
      intro field name mem
      obtain ⟨rfl, rfl⟩ : field = "n" ∧ name = "N" := by simpa using mem
      obtain ⟨own, read⟩ := @wholeField_of_float (entry n) "N" _ _ rfl whole_n
      exact ⟨own, read ▸ small⟩
    case mean =>
      intro field name mem
      obtain ⟨rfl, rfl⟩ : field = "n" ∧ name = "M" := by simpa using mem
      obtain ⟨own, read⟩ := wholeField_of_float (Mean.get?_state_value (nearestFloat n.toInt) 1) whole_n
      have one : (1 : Int64).toInt.natAbs ≤ 5 := by decide
      exact ⟨own, read ▸ small, one⟩
  obtain ⟨all, folded, left, -⟩ := @retraction_undoes_addition verbs 0 stage _ [entry 5] [entry 3] apart rfl emitted
    (by simp) (.of_modest (List.forall_mem_cons.2 ⟨modest 5 (by decide),
      List.forall_mem_singleton.2 (modest 3 (by decide))⟩) (by decide))
  exact ⟨all, folded, left (by simp)⟩

end Pipeline

end Rollup
