import Muk.Lib.Numeral

/-!
# Digits

The digits above nine are the letters, in either case.
-/

namespace Muk

variable {base : ℕ}

/-- A digit up to 35, in lower case. -/
def lowerDigit (d : ℕ) : Byte :=
  if d < 10 then BitVec.ofNat 8 (0x30 + d) else BitVec.ofNat 8 (0x57 + d)

/-- What a character counts as a digit. -/
def digitValue (b : Byte) : Option ℕ :=
  if 0x30 ≤ b ∧ b ≤ 0x39 then some (b.toNat - 0x30)
  else if 0x41 ≤ b ∧ b ≤ 0x5A then some (b.toNat - 0x37)
  else if 0x61 ≤ b ∧ b ≤ 0x7A then some (b.toNat - 0x57)
  else none

/-- The number of a digit. -/
def digitNumber (b : Byte) : ℕ := (digitValue b).getD 0

/-- The number of a lower-case digit is its value. -/
theorem digitNumber_lowerDigit : ∀ d < 36, digitNumber (lowerDigit d) = d := by decide

end Muk
