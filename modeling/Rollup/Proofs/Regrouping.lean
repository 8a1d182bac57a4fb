import Rollup.Proofs.Lineage
import Rollup.Proofs.Stage.Congruence

/-!
# Regrouping

Documents may be folded in groups, the aggregates of the groups in groups again, and so on to any depth
(`Grouping.fold?`).  The result is that of folding all documents at once (`fold_regrouped`): an aggregate stands
for its documents wherever it is folded again (`StandsFor`), because it has their totals and their first values.
-/

namespace Rollup

open Document

/-- Documents in groups, which may stand in groups again.  No group is empty. -/
inductive Grouping
  | docs (first : Document) (rest : List Document)
  | groups (first : Grouping) (rest : List Grouping)

namespace Grouping

mutual

/-- All documents, from the first group to the last. -/
def flatten : Grouping → List Document
  | docs first rest => first :: rest
  | groups first rest => first.flatten ++ flattenAll rest

/-- All documents of a list of groups. -/
def flattenAll : List Grouping → List Document
  | [] => []
  | g :: rest => g.flatten ++ flattenAll rest

end

mutual

/-- The documents of every group at any depth, the outermost first. -/
def parts : Grouping → List (List Document)
  | docs first rest => [first :: rest]
  | groups first rest => (first.flatten ++ flattenAll rest) :: (first.parts ++ partsAll rest)

/-- The documents of every group of a list. -/
def partsAll : List Grouping → List (List Document)
  | [] => []
  | g :: rest => g.parts ++ partsAll rest

end

mutual

/-- Folds the documents of the innermost groups, and the aggregates of groups further out. -/
def fold? (stage : Stage) : Grouping → Option Document
  | docs first rest => stage.reduce? (first :: rest)
  | groups first rest => do
    let d ← first.fold? stage
    let ds ← foldAll? stage rest
    stage.rereduce? (d :: ds)

/-- The aggregates of a list of groups. -/
def foldAll? (stage : Stage) : List Grouping → Option (List Document)
  | [] => some []
  | g :: rest => do
    let d ← g.fold? stage
    let ds ← foldAll? stage rest
    return d :: ds

end

theorem flattenAll_eq (gs : List Grouping) : flattenAll gs = (gs.map flatten).flatten := by
  induction gs with
  | nil => rfl
  | cons g rest ih => rw [flattenAll, ih, List.map_cons, List.flatten_cons]

theorem flatten_ne_nil (g : Grouping) : g.flatten ≠ [] := by
  cases g with
  | docs first rest => simp [flatten]
  | groups first rest => simp [flatten, flatten_ne_nil first]

end Grouping

/-! ## Totals over groups -/

section Groups

variable {R : List Document → Document → Prop} {groups : List (List Document)} {outs : List Document}
  {field : String}

theorem exists_group (stand : List.Forall₂ R groups outs) : ∀ out ∈ outs, ∃ docs, R docs out := by
  induction stand with
  | nil => simp
  | cons own _ ih => exact List.forall_mem_cons.2 ⟨⟨_, own⟩, ih⟩

/-- Where each of the documents has the total of a group, they have that of all groups. -/
theorem wholeSum_regrouped (stand : List.Forall₂ R groups outs)
    (totals : ∀ docs out, R docs out → whole out field = wholeSum docs field) :
    wholeSum outs field = wholeSum groups.flatten field := by
  induction stand with
  | nil => rfl
  | cons own _ ih =>
    rw [List.flatten_cons, wholeSum_append, ← ih, ← totals _ _ own, wholeSum, wholeSum, List.map_cons, List.sum_cons]

/-- Adding up the totals of groups passes by no total that adding up their documents does not pass by. -/
theorem within_regrouped (stand : List.Forall₂ R groups outs)
    (totals : ∀ docs out, R docs out → whole out field = wholeSum docs field ∧ (wholeSum docs field).natAbs < 2 ^ 53)
    {start : Int} (small : start.natAbs < 2 ^ 53) (within : Within field start groups.flatten) :
    Within field start outs := by
  induction stand generalizing start with
  | nil => trivial
  | cons own _ ih =>
    obtain ⟨total, below⟩ := totals _ _ own
    obtain ⟨first, later⟩ := Within.append.1 within
    have next := first.total small
    rw [Within, total]
    exact ⟨below, next, ih next later⟩

/-- What is found first in the documents of groups is found first in what stands for these. -/
theorem findSome?_regrouped {α : Type} {f : Document → Option α} (stand : List.Forall₂ R groups outs)
    (firsts : ∀ docs out, R docs out → f out = docs.findSome? f) :
    outs.findSome? f = groups.flatten.findSome? f := by
  induction stand with
  | nil => rfl
  | cons own _ ih =>
    rw [List.flatten_cons, List.findSome?_append, ← ih, ← firsts _ _ own, List.findSome?_cons]
    split <;> simp [*]

end Groups

/-! ## What stands for documents -/

/-- An aggregate has all that is read when it is folded again in place of its documents. -/
structure StandsFor (verbs : List Verb) (stage : Stage) (key : Key) (docs : List Document) (out : Document) :
    Prop where
  holds : stage.Holds verbs key out
  bounded : Exact stage.reduces docs
  totals : Totals stage.reduces docs out
  firsts : Firsts stage.reduces docs out

namespace StandsFor

variable {verbs : List Verb} {stage : Stage} {key : Key} {docs : List Document} {out : Document}
  {groups : List (List Document)} {outs : List Document}

theorem of_reduce? (counting : Counting stage.reduces) (reads : ∀ d ∈ docs, stage.Reads verbs key d)
    (bounded : Exact stage.reduces docs) (folded : stage.reduce? docs = some out) :
    StandsFor verbs stage key docs out where
  holds := Aggregate.of_reduce? counting reads folded
  bounded := bounded
  totals := .of_reduce? counting reads bounded folded
  firsts := .of_reduce? counting folded

theorem linear (stands : StandsFor verbs stage key docs out) {field : String} (mem : Linear stage.reduces field) :
    whole out field = wholeSum docs field ∧ (wholeSum docs field).natAbs < 2 ^ 53 :=
  ⟨stands.totals.linear field mem, (stands.bounded.linear field mem).natAbs_wholeSum⟩

theorem sum (stands : StandsFor verbs stage key docs out) {field name : String}
    (mem : .sum field name ∈ stage.reduces) :
    WholeField out name ∧ whole out name = wholeSum docs name ∧ (wholeSum docs name).natAbs < 2 ^ 53 := by
  obtain ⟨x, found, own⟩ := stands.totals.sum field name mem
  obtain ⟨whole, read⟩ := wholeField_of_float found own
  exact ⟨whole, read, own.natAbs_lt⟩

/-- The state of a mean has the totals of states. -/
structure MeanTotals (states : List Document) (state : Document) : Prop where
  value_whole : WholeField state Field.meanValue
  value : whole state Field.meanValue = wholeSum states Field.meanValue ∧
    (wholeSum states Field.meanValue).natAbs < 2 ^ 53
  count : whole state Field.meanCount = wholeSum states Field.meanCount ∧
    (wholeSum states Field.meanCount).natAbs < 2 ^ 53

theorem mean (stands : StandsFor verbs stage key docs out) {field name : String}
    (mem : .mean field name ∈ stage.reduces) :
    MeanTotals (Mean.states docs name) (Mean.stateOrEmpty name out) := by
  obtain ⟨x, c, recorded, value, number⟩ := stands.totals.mean field name mem
  have state : Mean.stateOrEmpty name out = Mean.state x c := by
    rw [Mean.stateOrEmpty, recorded.state]
    rfl
  obtain ⟨own, read⟩ := wholeField_of_float (Mean.get?_state_value x c) value.isWhole
  rw [state]
  exact ⟨own, ⟨read, value.isWhole.natAbs_lt⟩, (whole_of_int (Mean.get?_state_count x c)).trans number,
    (stands.bounded.mean field name mem).2.2.natAbs_wholeSum⟩

section Groups

theorem states_flatten (groups : List (List Document)) (name : String) :
    Mean.states groups.flatten name = (groups.map (Mean.states · name)).flatten := by
  rw [Mean.states, List.map_flatten]
  rfl

variable (stand : List.Forall₂ (StandsFor verbs stage key) groups outs)

include stand

/-- What stands for groups can be folded again. -/
theorem reads : ∀ d ∈ outs, stage.Reads verbs key d := by
  intro d mem
  obtain ⟨docs, own⟩ := exists_group stand d mem
  exact own.holds.toReadable

theorem states {field name : String} (mem : .mean field name ∈ stage.reduces) :
    List.Forall₂ MeanTotals (groups.map (Mean.states · name)) (Mean.states outs name) := by
  rw [Mean.states, List.forall₂_map_left_iff, List.forall₂_map_right_iff]
  exact stand.imp fun docs out own => own.mean mem

/-- What stands for groups has the totals of all their documents. -/
theorem sameTotals : SameTotals stage.reduces outs groups.flatten where
  linear _ mem := wholeSum_regrouped stand fun _ _ own => (own.linear mem).1
  sum _ _ mem := wholeSum_regrouped stand fun _ _ own => (own.sum mem).2.1
  value _ _ mem := by
    rw [states_flatten]
    exact wholeSum_regrouped (states stand mem) fun _ _ own => own.value.1
  number _ _ mem := by
    rw [states_flatten]
    exact wholeSum_regrouped (states stand mem) fun _ _ own => own.count.1
  breakdown field name mem := findSome?_regrouped stand fun _ _ own => own.firsts.breakdown field name mem
  state field name mem := findSome?_regrouped stand fun _ _ own => own.firsts.state field name mem

/-- Where no total of all documents is too large, none of what stands for their groups is. -/
theorem bounded_regrouped (all : Exact stage.reduces groups.flatten) : Exact stage.reduces outs := by
  constructor
  case linear =>
    exact fun field mem =>
      within_regrouped stand (fun _ _ own => own.linear mem) (by decide) (all.linear field mem)
  case sum =>
    intro field name mem
    refine ⟨fun d member => ?_, within_regrouped stand (fun _ _ own => (own.sum mem).2) (by decide)
      (all.sum field name mem).2⟩
    obtain ⟨docs, own⟩ := exists_group stand d member
    exact (own.sum mem).1
  case mean =>
    intro field name mem
    obtain ⟨-, values, counts⟩ := all.mean field name mem
    have stand' := states stand mem
    rw [states_flatten] at values counts
    refine ⟨fun s member => ?_, within_regrouped stand' (fun _ _ own => own.value) (by decide) values,
      within_regrouped stand' (fun _ _ own => own.count) (by decide) counts⟩
    obtain ⟨states, own⟩ := exists_group stand' s member
    exact own.value_whole

/-- An aggregate of what stands for groups stands for all their documents. -/
theorem regroup (counting : Counting stage.reduces) (all : Exact stage.reduces groups.flatten)
    (folded : stage.rereduce? outs = some out) : StandsFor verbs stage key groups.flatten out := by
  have again := of_reduce? counting (reads stand) (bounded_regrouped stand all) folded
  have same := sameTotals stand
  exact ⟨again.holds, all, same.totals again.totals, same.firsts again.firsts⟩

end Groups

end StandsFor

namespace Grouping

variable {verbs : List Verb} {stage : Stage} {key : Key}

theorem flatten_mem_parts (g : Grouping) : g.flatten ∈ g.parts := by
  cases g with
  | docs first rest => exact List.mem_singleton.2 rfl
  | groups first rest => exact List.mem_cons_self

theorem fold?_groups (stage : Stage) (first : Grouping) (rest : List Grouping) :
    (groups first rest).fold? stage = (foldAll? stage (first :: rest)).bind stage.rereduce? := by
  rw [fold?, foldAll?]
  cases first.fold? stage with
  | none => rfl
  | some d => cases foldAll? stage rest <;> rfl

theorem flatten_groups (first : Grouping) (rest : List Grouping) :
    (groups first rest).flatten = ((first :: rest).map flatten).flatten :=
  flattenAll_eq (first :: rest)

theorem foldAll?_ne_nil {gs : List Grouping} {outs : List Document} (some_ : gs ≠ [])
    (stand : List.Forall₂ (StandsFor verbs stage key) (gs.map flatten) outs) : outs ≠ [] := by
  rintro rfl
  cases gs with
  | nil => exact some_ rfl
  | cons g rest => cases stand

mutual

/-- Groups of any depth fold to an aggregate that stands for their documents. -/
theorem standsFor_fold? (counting : Counting stage.reduces) (g : Grouping)
    (reads : ∀ d ∈ g.flatten, stage.Reads verbs key d) (bounded : ∀ part ∈ g.parts, Exact stage.reduces part) :
    ∃ out, g.fold? stage = some out ∧ StandsFor verbs stage key g.flatten out := by
  have all := bounded _ g.flatten_mem_parts
  cases g with
  | docs first rest =>
    obtain ⟨out, folded⟩ := reduce?_isSome stage (List.cons_ne_nil first rest)
    exact ⟨out, folded, .of_reduce? counting reads all folded⟩
  | groups first rest =>
    rw [flatten, List.forall_mem_append] at reads
    rw [parts, List.forall_mem_cons, List.forall_mem_append] at bounded
    obtain ⟨d, made, stands⟩ := standsFor_fold? counting first reads.1 bounded.2.1
    obtain ⟨ds, made', stand⟩ := standsFor_foldAll? counting rest reads.2 bounded.2.2
    obtain ⟨out, folded⟩ := reduce?_isSome stage (List.cons_ne_nil d ds)
    rw [flatten_groups] at all ⊢
    refine ⟨out, ?_, StandsFor.regroup (.cons stands stand) counting all folded⟩
    rw [fold?, made, made']
    exact folded

theorem standsFor_foldAll? (counting : Counting stage.reduces) (gs : List Grouping)
    (reads : ∀ d ∈ flattenAll gs, stage.Reads verbs key d) (bounded : ∀ part ∈ partsAll gs, Exact stage.reduces part) :
    ∃ outs, foldAll? stage gs = some outs ∧ List.Forall₂ (StandsFor verbs stage key) (gs.map flatten) outs := by
  cases gs with
  | nil => exact ⟨[], rfl, .nil⟩
  | cons g rest =>
    rw [flattenAll, List.forall_mem_append] at reads
    rw [partsAll, List.forall_mem_append] at bounded
    obtain ⟨d, made, stands⟩ := standsFor_fold? counting g reads.1 bounded.1
    obtain ⟨ds, made', stand⟩ := standsFor_foldAll? counting rest reads.2 bounded.2
    refine ⟨d :: ds, ?_, .cons stands stand⟩
    rw [foldAll?, made, made']
    rfl

end

end Grouping

namespace Pipeline

variable {verbs : List Verb} {n : Nat} {stage : Stage} {key : Key}

/-- In every stage, documents that its map emitted under one key fold to the same document in whatever groups
they are folded. -/
theorem fold_regrouped (apart : ColumnsApart verbs) (at_ : (ofVerbs verbs).stages[n]? = some stage) (g : Grouping)
    (emitted : ∀ d ∈ g.flatten, (ofVerbs verbs).Emits n key d)
    (bounded : ∀ part ∈ g.parts, Exact stage.reduces part) :
    ∃ out whole, g.fold? stage = some out ∧ stage.reduce? g.flatten = some whole ∧
      SameButSums stage.reduces out whole := by
  have counting := counting_of_stage apart at_
  have reads : ∀ d ∈ g.flatten, stage.Reads (composition verbs) key d :=
    fun d mem => reads_of_emits apart at_ (emitted d mem)
  have all := bounded _ g.flatten_mem_parts
  obtain ⟨whole, folded⟩ := reduce?_isSome stage g.flatten_ne_nil
  cases g with
  | docs first rest => exact ⟨whole, whole, folded, folded, .refl _ whole⟩
  | groups first rest =>
    -- What stands for the outermost groups has all that a fold reads in common with the documents.
    rw [Grouping.parts, List.forall_mem_cons] at bounded
    obtain ⟨outs, made, stand⟩ := Grouping.standsFor_foldAll? counting (first :: rest) reads bounded.2
    obtain ⟨out, again⟩ := reduce?_isSome stage (Grouping.foldAll?_ne_nil (List.cons_ne_nil first rest) stand)
    rw [Grouping.fold?_groups, made]
    rw [Grouping.flatten_groups] at all reads folded ⊢
    have alike := (StandsFor.sameTotals stand).foldsAlike (StandsFor.reads stand) reads
      (StandsFor.bounded_regrouped stand all) all
    exact ⟨out, whole, again, folded, sameButSums_reduce? counting alike again folded⟩

/-- Four events in groups of two depths. -/
theorem fold_regrouped_four_events :
    let verbs : List Verb := [.brokenDownBy "a" "A", .sum "n" "N"]
    let entry (n : Int64) : Document :=
      ⟨[("A", .text "x"), ("Count", .int 1), ("N", .float (nearestFloat n.toInt))]⟩
    let stage := (ofVerbs verbs).root
    let g : Grouping := .groups (.docs (entry 5) []) [.groups (.docs (entry 3) [entry 7]) [.docs (entry 2) []]]
    ∃ out whole, g.fold? stage = some out ∧ stage.reduce? [entry 5, entry 3, entry 7, entry 2] = some whole ∧
      SameButSums stage.reduces out whole := by
  intro verbs entry stage g
  have apart : ColumnsApart verbs := ⟨by decide, by decide⟩
  have made : ∀ n, (ofVerbs verbs).Emits 0 ⟨[.text "x"]⟩ (entry n) :=
    fun n => ⟨⟨[("a", .text "x"), ("n", .int n)]⟩, rfl⟩
  have emitted : ∀ d ∈ g.flatten, (ofVerbs verbs).Emits 0 ⟨[.text "x"]⟩ d := by
    simp [g, Grouping.flatten, Grouping.flattenAll, made]
  have reduces : stage.reduces = [.countDocuments, .brokenDownBy "a" "A", .sum "n" "N"] := by decide
  have modest : ∀ n : Int64, n.toInt.natAbs ≤ 7 → Modest stage.reduces 7 (entry n) := by
    intro n small
    rw [reduces]
    constructor
    case linear =>
      rintro field (rfl | mem)
      · show (1 : Int64).toInt.natAbs ≤ 7
        decide
      · simp at mem
    case sum =>
      intro field name mem
      obtain ⟨rfl, rfl⟩ : field = "n" ∧ name = "N" := by simpa using mem
      obtain ⟨own, read⟩ := @wholeField_of_float (entry n) "N" _ _ rfl (IsWhole.nearestFloat (by omega))
      exact ⟨own, read ▸ small⟩
    case mean => simp
  have each : ∀ d ∈ g.flatten, Modest stage.reduces 7 d := by
    simpa [g, Grouping.flatten, Grouping.flattenAll] using
      ⟨modest 5 (by decide), modest 3 (by decide), modest 7 (by decide), modest 2 (by decide)⟩
  -- All parts have at most four entries, none of them greater than seven.
  have bounded : ∀ part ∈ g.parts, Exact stage.reduces part := by
    intro part mem
    have inside : (∀ d ∈ part, d ∈ g.flatten) ∧ part.length ≤ 4 := by
      simp only [g, Grouping.parts, Grouping.partsAll, Grouping.flatten, Grouping.flattenAll, List.append_nil,
        List.cons_append, List.nil_append, List.mem_cons, List.not_mem_nil, or_false] at mem ⊢
      rcases mem with rfl | rfl | rfl | rfl | rfl <;> simp
    exact .of_modest (fun d member => each d (inside.1 d member)) (by omega)
  exact @fold_regrouped verbs 0 stage _ apart rfl g emitted bounded

end Pipeline

end Rollup
