import Rollup.Stage

/-!
# Pipelines

A pipeline is a root stage and the stages chained behind it, each reading the buckets of the one
before.  `Pipeline.ofVerbs` lays them out: one stage drops the index parts if any verb adds some,
then one stage for every unique count merges the buckets of the values it counts.  Every chained
stage folds what the root folds, with the unique counts merged so far replaced by their tallies.
-/

namespace Rollup

/-- A chain of stages, which is never empty. -/
structure Pipeline where
  root : Stage
  chain : List Stage
deriving Repr, DecidableEq

namespace Pipeline

/-- The verbs of a pipeline: documents are always counted first, and once. -/
def composition (verbs : List Verb) : List Verb :=
  .countDocuments :: verbs.filter (· ≠ .countDocuments)

/-- The stages that merge the buckets of unique counts, in the order of the verbs. -/
def tallyStages (reduces : List Verb) : List Verb → List Stage
  | [] => []
  | .countUniqueValues field name :: rest =>
    let reduces := reduces.map fun v =>
      if v = .countUniqueValues field name then .uniqueTally name else v
    ⟨[.uniqueTally name], reduces, .buckets false⟩ :: tallyStages reduces rest
  | _ :: rest => tallyStages reduces rest

/-- The stage that drops index parts, if a verb adds some. -/
def indexStages (reduces verbs : List Verb) : List Stage :=
  if verbs.any Verb.isIndex then [⟨[.dropIndex], reduces, .buckets true⟩] else []

/-- The pipeline of a list of verbs. -/
def ofVerbs (verbs : List Verb) : Pipeline :=
  let verbs := composition verbs
  let root := Stage.root verbs
  ⟨root, indexStages root.reduces verbs ++ tallyStages root.reduces verbs⟩

/-- The stages from the root to the last. -/
def stages (p : Pipeline) : List Stage := p.root :: p.chain

/-- Whether buckets can be looked up by index values. -/
def isIndexed (p : Pipeline) : Bool := p.root.maps.any Verb.isIndex

end Pipeline

end Rollup
