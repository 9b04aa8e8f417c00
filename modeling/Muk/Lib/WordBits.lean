import Mathlib.Data.Nat.Notation
import Mathlib.Tactic.Common

/-!
# Bits in words

Words of `w` bits that follow each other are one row of bits. A mask with one bit changes a
single bit of a word, and so a single bit of the row.
-/

namespace Muk

variable {w i j k : ℕ} {v : BitVec w} {word word' : ℕ → BitVec w}

/-! ## Masks with one bit -/

/-- Or with one bit sets this bit, and no other. -/
theorem getLsbD_or_twoPow (hi : i < w) :
    (v ||| BitVec.twoPow w k).getLsbD i = if i = k then true else v.getLsbD i := by
  rw [BitVec.getLsbD_or, BitVec.getLsbD_twoPow]
  split_ifs with h
  · simp [← h, hi]
  · simp [Ne.symm h]

/-- And with all bits but one clears this bit, and no other. -/
theorem getLsbD_and_not_twoPow (hi : i < w) :
    (v &&& ~~~BitVec.twoPow w k).getLsbD i = if i = k then false else v.getLsbD i := by
  rw [BitVec.getLsbD_and, BitVec.getLsbD_not, BitVec.getLsbD_twoPow]
  split_ifs with h
  · simp [← h, hi]
  · simp [Ne.symm h, hi]

/-- Exclusive or with one bit flips this bit, and no other. -/
theorem getLsbD_xor_twoPow (hi : i < w) :
    (v ^^^ BitVec.twoPow w k).getLsbD i = if i = k then !v.getLsbD i else v.getLsbD i := by
  rw [BitVec.getLsbD_xor, BitVec.getLsbD_twoPow]
  split_ifs with h
  · simp [← h, hi]
  · simp [Ne.symm h]

/-- A mask of one bit selects it: the conjunction is not zero if and only if the bit is set. -/
theorem and_twoPow_ne_zero (hk : k < w) : v &&& BitVec.twoPow w k ≠ 0 ↔ v.getLsbD k = true := by
  have hpow : BitVec.twoPow w k ≠ 0#w := by
    intro hzero
    have hbit := congrArg (·.getLsbD k) hzero
    simp [hk] at hbit
  rw [BitVec.and_twoPow]
  cases v.getLsbD k <;> simp [hpow]

/-! ## Rows of bits -/

/-- Bit number `j` of a row of words. -/
def wordBit (word : ℕ → BitVec w) (j : ℕ) : Bool := (word (j / w)).getLsbD (j % w)

/-- Two places with the same word and the same bit in it are the same. -/
theorem place_eq_iff : j = k ↔ j / w = k / w ∧ j % w = k % w := by
  constructor
  · rintro rfl
    exact ⟨rfl, rfl⟩
  · rintro ⟨hdiv, hmod⟩
    rw [← Nat.div_add_mod j w, ← Nat.div_add_mod k w, hdiv, hmod]

/-- A word of which one bit changes: no other bit of the row does. -/
theorem wordBit_update {f : BitVec w → BitVec w} {g : Bool → Bool} (hw : 0 < w)
    (hword : ∀ i, word' i = if i = k / w then f (word i) else word i)
    (hf : ∀ v i, i < w → (f v).getLsbD i = if i = k % w then g (v.getLsbD i) else v.getLsbD i) :
    wordBit word' j = if j = k then g (wordBit word j) else wordBit word j := by
  rw [wordBit, hword, wordBit]
  by_cases hdiv : j / w = k / w
  · have hplace : j = k ↔ j % w = k % w :=
      place_eq_iff.trans ⟨fun h => h.2, fun h => ⟨hdiv, h⟩⟩
    rw [if_pos hdiv, hf _ _ (Nat.mod_lt j hw)]
    simp only [hplace]
  · rw [if_neg hdiv, if_neg fun h => hdiv (congrArg (· / w) h)]

end Muk
