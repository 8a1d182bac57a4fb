import Rollup.Verb.Fold

/-!
# Stages

A stage maps documents to bucket entries and folds the entries of a bucket.  The root stage reads
events; a chained stage reads the buckets of the stage before it, each with its key in a private
field (`Stage.tagged`).
-/

namespace Rollup

/-- What a stage reads. -/
inductive StageInput
  | events
  /-- Buckets of the stage before; `marked` if their keys end in a number of index parts. -/
  | buckets (marked : Bool)
deriving Repr, DecidableEq

/-- One level of mapping and folding. -/
structure Stage where
  maps : List Verb
  reduces : List Verb
  input : StageInput
deriving Repr, DecidableEq

namespace Stage

/-- The stage that applies all verbs to events. -/
def root (verbs : List Verb) : Stage := ⟨verbs, verbs.filter Verb.reduces, .events⟩

/-- The document and the draft from which a stage starts to map. -/
def start? (stage : Stage) (input : Document) : Option Mapping :=
  match stage.input with
  | .events => some ⟨{}, input⟩
  | .buckets marked => do
    let key ← Key.ofValue? (← input.get? Field.key)
    let input := input.erase Field.key
    return ⟨(({} : Draft).setKey key marked).setDocument input, input⟩

/-- The bucket entry that a document makes, unless it is rejected. -/
def map? (stage : Stage) (input : Document) : Option (Key × Document) := do
  let start ← stage.start? input
  (stage.maps.foldl Verb.map start).draft.finish?

/-- The aggregate of the documents of a bucket; there is none for no documents. -/
def reduce? (stage : Stage) (docs : List Document) : Option Document :=
  if docs.isEmpty then none else some (stage.reduces.foldl (Verb.reduce docs) .empty)

/-- The aggregate of aggregates. -/
def rereduce? (stage : Stage) (docs : List Document) : Option Document := stage.reduce? docs

/-- Takes documents out of an aggregate. -/
def unreduce (stage : Stage) (stored : Document) (docs : List Document) : Document :=
  stage.reduces.foldl (Verb.unreduce docs) stored

/-- A bucket as the next stage reads it. -/
def tagged (key : Key) (doc : Document) : Document := doc.insert Field.key key.toValue

end Stage

end Rollup
