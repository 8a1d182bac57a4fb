import Mathlib.Tactic
import Rollup.Proofs.Document

/-!
# The fields that verbs own

Every verb that reduces writes one field of an aggregate and at most one state (`Touches`).  Where the
verbs of a list own different fields (`Apart`), a pass over the list leaves in each field what its
owner wrote there (`Confined.foldl_turn`), whichever pass it is: mapping, folding and taking out are
all confined.
-/

namespace Rollup.Verb

open Document Mean

/-- The field of an aggregate that a verb writes. -/
def field? : Verb → Option String
  | countDocuments => some Field.count
  | v => v.column?

/-- The verbs write different fields, and none of the private ones. -/
structure Apart (verbs : List Verb) : Prop where
  nodup : (verbs.filterMap field?).Nodup
  visible : ∀ f ∈ verbs.filterMap field?, f ≠ Field.intermediate ∧ f ≠ Field.key

namespace Apart

variable {verbs : List Verb} {v : Verb} {f : String}

theorem ne_intermediate (apart : Apart verbs) (mem : v ∈ verbs) (owns : v.field? = some f) :
    f ≠ Field.intermediate :=
  (apart.visible f (List.mem_filterMap.2 ⟨v, mem, owns⟩)).1

theorem ne_key (apart : Apart verbs) (mem : v ∈ verbs) (owns : v.field? = some f) :
    f ≠ Field.key :=
  (apart.visible f (List.mem_filterMap.2 ⟨v, mem, owns⟩)).2

theorem field?_ne_intermediate (apart : Apart verbs) (mem : v ∈ verbs) :
    v.field? ≠ some Field.intermediate :=
  fun owns => apart.ne_intermediate mem owns rfl

/-- The owner of a field splits the list into verbs that own other fields. -/
theorem split (apart : Apart verbs) (mem : v ∈ verbs) (owns : v.field? = some f) :
    ∃ before after, verbs = before ++ v :: after ∧ (∀ u ∈ before, u.field? ≠ some f) ∧
      ∀ u ∈ after, u.field? ≠ some f := by
  obtain ⟨before, after, rfl⟩ := List.append_of_mem mem
  have nodup := apart.nodup
  simp only [List.filterMap_append, List.filterMap_cons, owns, List.nodup_append, List.nodup_cons] at nodup
  obtain ⟨-, ⟨behind, -⟩, disjoint⟩ := nodup
  refine ⟨before, after, rfl, ?_, ?_⟩
  · intro u member same
    exact disjoint f (List.mem_filterMap.2 ⟨u, member, same⟩) f List.mem_cons_self rfl
  · intro u member same
    exact behind (List.mem_filterMap.2 ⟨u, member, same⟩)

end Apart

/-! ## Writes -/

/-- What the owner of a field may do to a document: nothing, or write the field, alone or with the state of its
name. -/
inductive Touches : Option String → Document → Document → Prop where
  | nothing {own : Option String} {d : Document} : Touches own d d
  | column {d : Document} (name : String) (value : Value) : Touches (some name) d (d.insert name value)
  | both {d : Document} (name : String) (value state : Value) :
      Touches (some name) d (insertIn (d.insert name value) Field.intermediate name state)

namespace Touches

variable {own : Option String} {d e : Document} {f : String}

/-- A field of another owner is as it was. -/
theorem get? (touches : Touches own d e) (other : own ≠ some f) (plain : f ≠ Field.intermediate) :
    e.get? f = d.get? f := by
  cases touches with
  | nothing => rfl
  | column name value => exact get?_insert_of_ne _ _ fun same => other (congrArg some same.symm)
  | both name value state =>
    rw [get?_insertIn_of_ne _ _ _ plain]
    exact get?_insert_of_ne _ _ fun same => other (congrArg some same.symm)

/-- A state of another owner is as it was. -/
theorem state? (touches : Touches own d e) (other : own ≠ some f) (plain : own ≠ some Field.intermediate) :
    Mean.state? e f = Mean.state? d f := by
  cases touches with
  | nothing => rfl
  | column name value => exact state?_insert_of_ne _ _ _ fun same => plain (congrArg some same)
  | both name value state =>
    rw [state?_insertIn_of_ne _ _ fun same => other (congrArg some same.symm)]
    exact state?_insert_of_ne _ _ _ fun same => plain (congrArg some same)

end Touches

/-! ## Passes -/

/-- A pass in which every verb writes its own field and its own state only. -/
structure Confined {σ : Type} (doc : σ → Document) (act : σ → Verb → σ) : Prop where
  get? : ∀ s v f, v.field? ≠ some f → f ≠ Field.intermediate →
    (doc (act s v)).get? f = (doc s).get? f
  state? : ∀ s v name, v.field? ≠ some name → v.field? ≠ some Field.intermediate →
    Mean.state? (doc (act s v)) name = Mean.state? (doc s) name

namespace Confined

variable {σ : Type} {doc : σ → Document} {act : σ → Verb → σ} {verbs : List Verb} {f : String}

/-- A pass is confined in which every verb writes like the owner of its field. -/
theorem of_touches (touches : ∀ s v, Touches v.field? (doc s) (doc (act s v))) : Confined doc act where
  get? s v _ other plain := (touches s v).get? other plain
  state? s v _ other plain := (touches s v).state? other plain

theorem foldl_get? (confined : Confined doc act) (others : ∀ v ∈ verbs, v.field? ≠ some f)
    (plain : f ≠ Field.intermediate) (s : σ) :
    (doc (verbs.foldl act s)).get? f = (doc s).get? f := by
  induction verbs generalizing s with
  | nil => rfl
  | cons v rest ih =>
    rw [List.foldl_cons, ih (fun u member => others u (List.mem_cons_of_mem _ member))]
    exact confined.get? s v f (others v List.mem_cons_self) plain

theorem foldl_state? (confined : Confined doc act) (others : ∀ v ∈ verbs, v.field? ≠ some f)
    (plain : ∀ v ∈ verbs, v.field? ≠ some Field.intermediate) (s : σ) :
    Mean.state? (doc (verbs.foldl act s)) f = Mean.state? (doc s) f := by
  induction verbs generalizing s with
  | nil => rfl
  | cons v rest ih =>
    rw [List.foldl_cons, ih (fun u member => others u (List.mem_cons_of_mem _ member))
      (fun u member => plain u (List.mem_cons_of_mem _ member))]
    exact confined.state? s v f (others v List.mem_cons_self) (plain v List.mem_cons_self)

/-- After a pass, the field and the state of a verb are what it wrote when its turn came, and until
then they were what they had been at the start. -/
theorem foldl_turn (confined : Confined doc act) (apart : Apart verbs) {v : Verb} (mem : v ∈ verbs)
    (owns : v.field? = some f) (s : σ) :
    ∃ before after, verbs = before ++ v :: after ∧ (∀ u ∈ before, u.field? ≠ some f) ∧
      (doc (verbs.foldl act s)).get? f = (doc (act (before.foldl act s) v)).get? f ∧
      Mean.state? (doc (verbs.foldl act s)) f = Mean.state? (doc (act (before.foldl act s) v)) f := by
  obtain ⟨before, after, rfl, first, last⟩ := apart.split mem owns
  have plain : ∀ u ∈ after, u.field? ≠ some Field.intermediate := by
    intro u member
    exact apart.field?_ne_intermediate (List.mem_append_right _ (List.mem_cons_of_mem _ member))
  refine ⟨before, after, rfl, first, ?_, ?_⟩
  · rw [List.foldl_append, List.foldl_cons]
    exact confined.foldl_get? last (apart.ne_intermediate mem owns) _
  · rw [List.foldl_append, List.foldl_cons]
    exact confined.foldl_state? last plain _

end Confined

/-! ## Folding is confined -/

theorem writePresence_eq (d : Document) (name : String) :
    writePresence d name = d.insert name (.int (if 0 < whole d Field.count then 1 else 0)) := rfl

theorem reduce_confined (docs : List Document) : Confined id (reduce docs) := by
  refine .of_touches fun d v => ?_
  cases v with
  | countDocuments | sum _ _ | uniqueTally _ => exact .column _ _
  | brokenDownBy field name =>
    simp only [reduce, id]
    split
    · exact .column name _
    · exact .nothing
  | mean field name => exact .both name _ _
  | countUniqueValues field name =>
    simp only [reduce, id, writePresence_eq]
    split
    · exact .both name _ _
    · exact .column name _
  | only _ _ | indexedBy _ | transformDateFormat _ _ _ | dropIndex => exact .nothing

theorem unreduce_confined (docs : List Document) : Confined id (unreduce docs) := by
  refine .of_touches fun d v => ?_
  cases v with
  | countDocuments | sum _ _ | uniqueTally _ | countUniqueValues _ _ => exact .column _ _
  | mean field name => exact .both name _ _
  | brokenDownBy _ _ | only _ _ | indexedBy _ | transformDateFormat _ _ _ | dropIndex => exact .nothing

end Rollup.Verb
