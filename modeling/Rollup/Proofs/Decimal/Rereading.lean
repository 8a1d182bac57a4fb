import Rollup.Proofs.Binary64.Nearest
import Rollup.Proofs.Decimal.Layout

/-!
# A written double reads back

A literal in the neighbourhood of a double is read as this double (`Literal.nearest?_eq`), and the shortest decimal of
a double lies there.  So the text of a finite double in a layout that keeps it apart from whole numbers is read as the
double itself, the sign of a zero included (`Layout.exists_rereading`).
-/

namespace Rollup.Decimal

open Float.Model Float.Model.UnpackedFloat Json.Token

variable {x : Float} {m : Nat} {e : Int}

theorem neg_ofMagnitude (m : Nat) (e : Int) : (ofMagnitude .positive m e).neg = ofMagnitude .negative m e := by
  unfold ofMagnitude
  split <;> rfl

theorem isInf_ofMagnitude (s : Sign) (m : Nat) (e : Int) : (ofMagnitude s m e).isInf = false := by
  unfold ofMagnitude
  split <;> rfl

/-- A literal in the neighbourhood of a double is read as the double. -/
theorem Literal.nearest?_eq {lit : Literal} (decoded : Binary64.decode x = .finite lit.negative m e)
    (near : (Neighbourhood.of m e).Contains lit.magnitude) : lit.nearest? = some x := by
  have mag := isMagnitude_of_decode decoded
  have top := exponent_le_of_decode decoded
  have own := unpack_of_decode decoded
  have unpacked := unpack_ofScientific decoded near
  rw [nearest?]
  generalize Float.ofScientific _ _ _ = y at unpacked ⊢
  have finite : y.isInf = false := by
    show y.toModel.unpack.isInf = false
    rw [unpacked, isInf_ofMagnitude]
  rw [finite, if_neg (by decide)]
  refine congrArg some (eq_of_unpack ?_)
  cases sign : lit.negative with
  | false =>
    rw [sign] at own
    exact unpacked.trans own.symm
  | true =>
    rw [sign] at own
    show (Float.Model.pack y.toModel.unpack.neg).unpack = _
    rw [unpacked, neg_ofMagnitude, unpack_pack_ofMagnitude .negative mag top]
    exact own.symm

namespace Layout

variable {l : Layout}

theorem contains_spelled (mag : IsMagnitude m e) : (Neighbourhood.of m e).Contains (l.spelled m e) := by
  unfold spelled
  split
  · next zero =>
    subst zero
    obtain rfl := mag.normal (by norm_num)
    exact contains_zero le_rfl (by positivity)
  · next nonzero => exact contains_shortest l.tie (Nat.pos_of_ne_zero nonzero) mag.small

/-- The text of a finite double reads back as the double. -/
theorem exists_rereading (marks : l.marksWhole = true) (plus : l.plus = [] ∨ l.plus = ['+']) {negative : Bool}
    (decoded : Binary64.decode x = .finite negative m e) :
    ∃ lit : Literal, lit.isPlain = false ∧ lit.nearest? = some x ∧
      ∀ r, EndsNumber r → scan? (l.chars x ++ r) = some (.number lit, r) := by
  have mag := isMagnitude_of_decode decoded
  obtain ⟨lit, rfl, spells⟩ := exists_literal (l := l) marks plus negative (e := e) mag.small
  refine ⟨lit, spells.decimal, ?_, fun r ends => ?_⟩
  · refine Literal.nearest?_eq decoded ?_
    rw [spells.number]
    exact contains_spelled mag
  · rw [chars, decoded]
    exact spells.scan? ends

end Layout

end Rollup.Decimal
