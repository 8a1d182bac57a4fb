import Rollup.Verb.Map

/-!
# Folding

`Verb.reduce` folds the documents of one bucket into an aggregate.  The documents may be fresh map
outputs or aggregates, so aggregates merge by the same fold.  `Verb.unreduce` takes the contribution
of documents out of an aggregate again.

Counts stop at the ends of the 64-bit range.  A sum starts from minus zero, which is neutral for
addition: a sum over nothing is minus zero, and a sum of minus zeros stays one.
-/

namespace Rollup

namespace Count

/-- Addition that stops at the ends of the range. -/
def add (a b : Int64) : Int64 := Binary64.clampInt64 (a.toInt + b.toInt)

/-- Subtraction that stops at the ends of the range. -/
def sub (a b : Int64) : Int64 := Binary64.clampInt64 (a.toInt - b.toInt)

/-- The number of documents that a document stands for; one that has no count stands for itself. -/
def contribution (d : Document) : Int64 := d.integerOr Field.count 1

/-- The number of documents that a list of documents stands for. -/
def total (docs : List Document) : Int64 := docs.foldl (fun n d => add n (contribution d)) 0

end Count

namespace Mean

/-- The state of a verb in a document. -/
def state? (d : Document) (name : String) : Option Document :=
  (d.sub? Field.intermediate).bind fun states => states.sub? name

/-- The sum and the number of the values that a document stands for. -/
def read (d : Document) (name : String) : Float × Int64 :=
  match state? d name with
  | some s => (s.numberOrZero Field.meanValue, s.integerOr Field.meanCount 0)
  | none => (0.0, 0)

/-- Writes the average with its state. -/
def write (d : Document) (name : String) (sum : Float) (count : Int64) : Document :=
  Document.insertIn (d.insert name (.float (average sum count))) Field.intermediate name
    (.map (state sum count))

end Mean

namespace Verb

/-- The sum of a field over documents. -/
def total (docs : List Document) (name : String) : Float :=
  docs.foldl (fun acc d => acc + d.numberOrZero name) (-0.0)

/-- Writes one while anything counts toward the bucket, and zero otherwise. -/
def writePresence (d : Document) (name : String) : Document :=
  d.insert name (.int (if 0 < (d.integerOr Field.count 0).toInt then 1 else 0))

/-- Folds documents into an aggregate. -/
def reduce (docs : List Document) (out : Document) : Verb → Document
  | countDocuments => out.insert Field.count (.int (Count.total docs))
  | brokenDownBy _ name =>
    match docs.findSome? fun d => d.get? name with
    | some value => out.insert name value
    | none => out
  | sum _ name => out.insert name (.float (total docs name))
  | uniqueTally name => out.insert name (.int (roundToInt64 (total docs name)))
  | mean _ name =>
    let (value, count) := docs.foldl
      (fun (acc : Float × Int64) d =>
        let (v, c) := Mean.read d name
        (acc.1 + v, Count.add acc.2 c))
      (0.0, 0)
    Mean.write out name value count
  | countUniqueValues _ name =>
    let out := writePresence out name
    match docs.findSome? fun d => Mean.state? d name with
    | some s => Document.insertIn out Field.intermediate name (.map s)
    | none => out
  | only _ _ | indexedBy _ | transformDateFormat _ _ _ | dropIndex => out

/-- Takes documents out of an aggregate.  A unique count reads the count that was adjusted before
it. -/
def unreduce (docs : List Document) (stored : Document) : Verb → Document
  | countDocuments =>
    stored.insert Field.count
      (.int (Count.sub (stored.integerOr Field.count 0) (Count.total docs)))
  | sum _ name =>
    stored.insert name (.float (stored.numberOrZero name - total docs name))
  | uniqueTally name =>
    stored.insert name (.int (roundToInt64 (stored.numberOrZero name - total docs name)))
  | mean _ name =>
    let (value, count) := docs.foldl
      (fun (acc : Float × Int64) d =>
        let (v, c) := Mean.read d name
        (acc.1 - v, Count.sub acc.2 c))
      (Mean.read stored name)
    Mean.write stored name value count
  | countUniqueValues _ name => writePresence stored name
  | brokenDownBy _ _ | only _ _ | indexedBy _ | transformDateFormat _ _ _ | dropIndex => stored

end Verb

end Rollup
