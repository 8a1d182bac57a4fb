import Rollup.Text.Quoted

/-!
# Reading quoted texts back

A text that was written between quotes reads back as it was, whatever characters it has and whatever stands
behind it (`scan_encode`).  Every character is written so that reading it leaves no escape open (`scan_escape`).
-/

namespace Rollup.Text

theorem hexValue?_hexDigit : ∀ d < 16, hexValue? (hexDigit d) = some d := by decide

theorem hexDigits_four (n : Nat) :
    hexDigits 4 n = [hexDigit (n / 4096 % 16), hexDigit (n / 256 % 16), hexDigit (n / 16 % 16), hexDigit (n % 16)] := by
  simp [hexDigits, List.range, List.range.loop]

namespace Quoted

variable {pending : Pending} {c : Char} {rest : List Char}

/-- A character that completes one. -/
theorem scan_complete (inside : ¬ (pending = .plain ∧ c = '"')) {d : Char}
    (stepped : step? pending c = some ⟨.plain, some d⟩) :
    scan pending (c :: rest) = (scan .plain rest).map fun r => (d :: r.1, r.2) := by
  rw [scan, if_neg inside, stepped]
  rfl

/-- A character inside an escape. -/
theorem scan_pending (inside : ¬ (pending = .plain ∧ c = '"')) {pending' : Pending}
    (stepped : step? pending c = some ⟨pending', none⟩) : scan pending (c :: rest) = scan pending' rest := by
  rw [scan, if_neg inside, stepped]
  exact Option.map_id'

theorem scan_digit {left value d : Nat} (small : d < 16) :
    scan (.digits none (left + 1) value) (hexDigit d :: rest) = scan (.digits none left (16 * value + d)) rest := by
  refine scan_pending (by simp) ?_
  simp [step?, hexValue?_hexDigit d small]

/-- A control character is read from the digits of its code. -/
theorem scan_control (control : c.toNat < 0x20) :
    scan (.digits none 3 0) (hexDigits 4 c.toNat ++ rest) = (scan .plain rest).map fun r => (c :: r.1, r.2) := by
  have small (n : Nat) : n % 16 < 16 := Nat.mod_lt n (by decide)
  have last : step? (.digits none 0 (16 * (16 * (16 * 0 + c.toNat / 4096 % 16) + c.toNat / 256 % 16) +
      c.toNat / 16 % 16)) (hexDigit (c.toNat % 16)) = some ⟨.plain, some c⟩ := by
    have value : 16 * (16 * (16 * (16 * 0 + c.toNat / 4096 % 16) + c.toNat / 256 % 16) + c.toNat / 16 % 16) +
        c.toNat % 16 = c.toNat := by omega
    simp only [step?, hexValue?_hexDigit _ (small _), Option.bind_eq_bind, Option.bind_some, value, unitStep?]
    rw [if_neg (by omega), if_neg (by omega), Char.ofNat_toNat]
  rw [hexDigits_four]
  simp only [List.cons_append, List.nil_append]
  rw [scan_digit (small _), scan_digit (small _), scan_digit (small _), scan_complete (by simp) last]

/-- A character reads back from how it is written. -/
theorem scan_escape (c : Char) (rest : List Char) :
    scan .plain (escape c ++ rest) = (scan .plain rest).map fun r => (c :: r.1, r.2) := by
  have letter {e : Char} (named : simpleEscape? e = some c) (other : e ≠ 'u') :
      scan .plain ('\\' :: e :: rest) = (scan .plain rest).map fun r => (c :: r.1, r.2) := by
    rw [scan_pending (by simp) rfl]
    refine scan_complete (by simp) ?_
    simp [step?, other, named]
  unfold escape
  -- Seven characters have letters of their own.
  iterate 7
    split
    · next own =>
      subst own
      exact letter rfl (by decide)
  split
  · next control =>
    simp only [List.cons_append]
    rw [scan_pending (by simp) rfl, scan_pending (by simp) rfl, scan_control control]
  · next unquoted unslashed _ _ _ _ _ printed =>
    refine scan_complete (fun ended => unquoted ended.2) ?_
    rw [step?, if_neg unslashed, if_neg printed]

/-- A text reads back from between its quotes. -/
theorem scan_encode (cs rest : List Char) : scan .plain (cs.flatMap escape ++ '"' :: rest) = some (cs, rest) := by
  induction cs with
  | nil => rfl
  | cons c cs ih =>
    rw [List.flatMap_cons, List.append_assoc, scan_escape, ih]
    rfl

end Quoted

end Rollup.Text
