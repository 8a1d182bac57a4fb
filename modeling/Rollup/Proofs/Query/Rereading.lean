import Rollup.Proofs.Json.Rereading
import Rollup.Query.Json

/-!
# A written query reads back

A query whose clauses nest at most as deep as the reader goes is read from its JSON text as it was (`rereads_unchanged`), whatever
its arguments are.  The members of the outermost clause are told apart by their names alone (`ofMembers?_written`), and a
base that is named is an object, never the null that stands for none (`base?_toJson`).
-/

namespace Rollup.Query

/-- The members of a clause in front of the base it names. -/
def members (clause : Clause) : List (String × Json) :=
  ("verb", .text clause.label) :: clause.arguments.map fun a => (a.1, .text a.2)

theorem toJson_alone (clause : Clause) : (alone clause).toJson = .object (members clause) := rfl

theorem toJson_appliedTo (clause : Clause) (base : Query) :
    (appliedTo clause base).toJson = .object (members clause ++ [("applies_to", base.toJson)]) := rfl

/-! ## The tree of a query -/

theorem readMembers_append (front back : List (String × Json)) :
    readMembers (front ++ back) = readMembers front ++ readMembers back := by
  induction front with
  | nil => rfl
  | cons m front ih => rw [List.cons_append, readMembers, readMembers, ih, List.cons_append]

/-- The clause that was written is read, with the base in the last member. -/
theorem ofMembers?_written (inner : Bool) (clause : Clause) (part : Part) :
    ofMembers? inner (readMembers (members clause) ++ [("applies_to", part)]) = part.base?.map (ofClause clause) := by
  -- The members of each clause have names of their own, so they are found by computing.
  cases clause <;> rfl

theorem base?_toJson (q : Query) : Part.base? ⟨q.toJson, some q⟩ = some (some q) := by
  cases q <;> rfl

/-- A query is read from its tree, inside another query or alone. -/
theorem read?_toJson (q : Query) (inner : Bool) : read? inner q.toJson = some q := by
  induction q generalizing inner with
  | allEvents => rfl
  | alone clause => cases clause <;> rfl
  | appliedTo clause base ih =>
    rw [toJson_appliedTo, read?, readMembers_append, readMembers, ih, readMembers, ofMembers?_written, base?_toJson]
    rfl

/-! ## The text of a query -/

open Json

/-- The members of a clause are texts. -/
theorem members_texts (depth : Nat) (clause : Clause) :
    MembersFit depth (members clause) ∧ membersAsWritten (members clause) = members clause := by
  cases clause <;> exact ⟨by simp [members, MembersFit, Fits, Clause.arguments], rfl⟩

/-- Each clause opens one object inside that of the clause around it. -/
theorem fits_toJson {q : Query} {depth : Nat} (nested : q.depth < depth) : q.toJson.Fits depth := by
  induction q generalizing depth with
  | allEvents => exact ⟨by omega, by simp [MembersFit, Fits]⟩
  | alone clause => exact ⟨by omega, (members_texts _ clause).1⟩
  | appliedTo clause base ih =>
    rw [Query.depth] at nested
    exact ⟨by omega, membersFit_append (members_texts _ clause).1 ⟨ih (by omega), trivial⟩⟩

/-- A query has no numbers, so its tree is written as it is. -/
theorem asWritten_toJson (q : Query) : q.toJson.asWritten = q.toJson := by
  induction q with
  | allEvents => rfl
  | alone clause => rw [toJson_alone, asWritten, (members_texts 0 clause).2]
  | appliedTo clause base ih =>
    rw [toJson_appliedTo, asWritten, membersAsWritten_append, (members_texts 0 clause).2, membersAsWritten, ih,
      membersAsWritten]

/-- A query of at most 127 nodes is read back from its text, so it compiles to the same pipeline or is refused for the
same fault. -/
theorem rereads_unchanged {q : Query} (nested : q.depth + 1 ≤ 127) :
    ofString? q.render = some q ∧ (ofString? q.render).map compile = some q.compile := by
  have read : ofString? q.render = some q := by
    rw [ofString?, render, Json.ofString?_render (fits_toJson nested), asWritten_toJson, Option.bind_some]
    exact read?_toJson q false
  exact ⟨read, congrArg (Option.map compile) read⟩

/-- A query that is refused for an empty key is refused for it again, whatever its texts hold. -/
theorem rereads_unchanged_refused :
    let q : Query := appliedTo (.sum "" "\"\\") (appliedTo (.only "verb" "\u0000") .allEvents)
    q.depth + 1 ≤ 127 ∧ ofString? q.render = some q ∧
      (ofString? q.render).map compile = some (.error (.emptyArgument "Sum" "key")) := by
  intro q
  have nested : q.depth + 1 ≤ 127 := by decide
  exact ⟨nested, (rereads_unchanged nested).1, (rereads_unchanged nested).2.trans rfl⟩

end Rollup.Query
