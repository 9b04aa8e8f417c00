import Muk.Lib.Text
import Muk.Std.Itoa

/-!
# atoi

`atoi` takes the sign for a digit, too: its value is three below zero. So the string of a negative
number is read as another number.
-/

namespace Muk

variable {m : Mem} {text : List Byte} {fuel : ℕ}

/-- `returnVal*10 + str[i] - '0'` -/
def atoiStep (returnVal : Word) (c : Byte) : Word := returnVal * 10#32 + c.signExtend 32 - 0x30#32

/-- `atoi`. The loop goes from the first character, whatever it is, to the end of the string. -/
def atoi (m : Cells) (fuel : ℕ) (str : ℕ) : Except ScanFault Word := do
  let text ← readString m fuel str
  let multiplier : Word := if text.head? = some 0x2D then -1 else 1
  .ok (text.foldl atoiStep 0 * multiplier)

/-- Memory from an address on. -/
def cellsFrom (m : Mem) (a : Word) : Cells := fun k => some (m (a + BitVec.ofNat 32 k))

/-- A string that was written. -/
theorem text_storeText (m : Mem) (a : Word) (hne : ∀ b ∈ text, b ≠ 0)
    (hfit : text.length < 2 ^ 32) : Text (cellsFrom (storeText m a (text ++ [0])) a) 0 text := by
  have hlength : (text ++ [0]).length = text.length + 1 := List.length_append
  have hcell (k : ℕ) (hk : k < 2 ^ 32) : cellsFrom (storeText m a (text ++ [0])) a k =
      some (((text ++ [0])[k]?).getD (m (a + BitVec.ofNat 32 k))) := by
    have hdist : (a + BitVec.ofNat 32 k - a).toNat = k := by
      rw [BitVec.add_comm, BitVec.add_sub_cancel, toNat_ofNat_of_lt hk]
    rw [cellsFrom, storeText_apply (by omega), hdist]
  have hbytes : Bytes (cellsFrom (storeText m a (text ++ [0])) a) 0 text := by
    rw [bytes_iff]
    intro i hi
    rw [Nat.zero_add, hcell i (by omega), List.getElem?_append_left hi,
      List.getElem?_eq_getElem hi]
    rfl
  have hend : cellsFrom (storeText m a (text ++ [0])) a (0 + text.length) = some 0 := by
    rw [Nat.zero_add, hcell _ hfit, List.getElem?_concat_length]
    rfl
  exact Text.of_bytes hbytes hne hend

/-- A digit in the text multiplies by ten and adds its value. -/
theorem atoiStep_lowerDigit (returnVal : Word) {d : ℕ} (hd : d < 10) :
    atoiStep returnVal (lowerDigit d) = returnVal * 10#32 + BitVec.ofNat 32 d := by
  have hchar : ∀ d < 10, (lowerDigit d).signExtend 32 = BitVec.ofNat 32 d + 0x30#32 := by decide
  rw [atoiStep, hchar d hd, ← BitVec.add_assoc, BitVec.add_sub_cancel]

/-- The loop of `atoi` over digits. -/
theorem atoi_digits (hdigits : ∀ b ∈ text, ∃ d < 10, b = lowerDigit d) (start : Word) :
    text.foldl atoiStep start = start * BitVec.ofNat 32 (10 ^ text.length) +
      BitVec.ofNat 32 (ofNumeral digitNumber 10 text) := by
  induction text using List.reverseRecOn with
  | nil => simp
  | append_singleton text b ih =>
    obtain ⟨d, hd, rfl⟩ := hdigits b (List.mem_append_right _ (List.mem_singleton_self b))
    rw [List.foldl_append, ih fun c hc => hdigits c (List.mem_append_left _ hc), List.foldl_cons,
      List.foldl_nil, atoiStep_lowerDigit _ hd, ofNumeral_append_singleton,
      digitNumber_lowerDigit d (by omega), List.length_append, List.length_singleton, pow_succ,
      BitVec.ofNat_add, BitVec.ofNat_mul, BitVec.ofNat_mul, ← BitVec.mul_assoc,
      BitVec.add_mul, BitVec.add_assoc]

/-- The digits of `itoa` in base ten are decimal ones. -/
theorem mem_itoaDigits {v : Word} : ∀ b ∈ itoaDigits v 10#32, ∃ d < 10, b = lowerDigit d :=
  fun _ hb => mem_numeral (by decide) hb

/-- A string of `itoa` is at most ten digits and a sign. -/
theorem length_itoaDigits_le (v : Word) : (itoaDigits v 10#32).length ≤ 10 := by
  have hlt := (if itoaSigned v 10#32 then -v else v).isLt
  rw [itoaMagnitude_eq] at hlt
  exact length_numeral_le (by decide) (by omega) (Nat.lt_trans hlt (by decide))

/-- A string of `itoa` has no NUL. -/
theorem itoaText_ne_zero (v : Word) : ∀ b ∈ itoaText v 10#32, b ≠ 0 := by
  intro b hb
  rcases List.mem_append.mp hb with hsign | hdigit
  · split_ifs at hsign
    · rw [List.mem_singleton.mp hsign]
      decide
    · exact absurd hsign List.not_mem_nil
  · obtain ⟨d, hd, rfl⟩ := mem_itoaDigits b hdigit
    have hne : ∀ d < 10, lowerDigit d ≠ 0 := by decide
    exact hne d hd

/-- What `atoi` reads from the string of `itoa`: the sign counts as a digit. -/
theorem foldl_itoaText (v : Word) :
    (itoaText v 10#32).foldl atoiStep 0 *
        (if (itoaText v 10#32).head? = some 0x2D then -1 else 1) =
      if v.toInt < 0 then 3#32 * BitVec.ofNat 32 (10 ^ (itoaDigits v 10#32).length) + v else v := by
  have hsigned : itoaSigned v 10#32 ↔ v.toInt < 0 := and_iff_right rfl
  have hnumber : ofNumeral digitNumber 10 (itoaDigits v 10#32) = itoaMagnitude v 10#32 :=
    ofNumeral_itoaDigits (by decide : 4 ≤ (10#32).toNat) (by decide)
  have hv := ofInt_itoaMagnitude v 10#32
  simp only [hsigned] at hv
  by_cases hneg : v.toInt < 0
  · have htext : itoaText v 10#32 = 0x2D :: itoaDigits v 10#32 := by
      rw [itoaText, if_pos (hsigned.mpr hneg)]
      rfl
    rw [if_pos hneg, BitVec.ofInt_neg, BitVec.ofInt_natCast] at hv
    rw [if_pos hneg, htext, List.head?_cons, if_pos rfl, List.foldl_cons,
      atoi_digits mem_itoaDigits, hnumber]
    have hstart : atoiStep 0 0x2D = -3#32 := by decide
    rw [hstart, ← hv]
    grind
  · have htext : itoaText v 10#32 = itoaDigits v 10#32 := by
      rw [itoaText, if_neg (mt hsigned.mp hneg)]
      rfl
    have hhead : (itoaDigits v 10#32).head? ≠ some 0x2D := by
      intro h
      obtain ⟨d, hd, heq⟩ := mem_itoaDigits _ (List.mem_of_mem_head? h)
      have hne : ∀ d < 10, lowerDigit d ≠ 0x2D := by decide
      exact hne d hd heq.symm
    rw [if_neg hneg, BitVec.ofInt_natCast] at hv
    rw [if_neg hneg, htext, if_neg hhead, atoi_digits mem_itoaDigits, hnumber, hv]
    simp

/-- `atoi` undoes `itoa` for a number. -/
def AtoiUndoes (m : Mem) (v sp : Word) : Prop :=
  ∃ len m', itoaWrite m v sp 10#32 = .ok (len, m') ∧ atoi (cellsFrom m' sp) (2 ^ 32) 0 = .ok v

/-- What `atoi` returns for the string of `itoa`. -/
theorem atoi_itoaText (m : Mem) (v sp : Word) :
    atoi (cellsFrom (storeText m sp (itoaText v 10#32 ++ [0])) sp) (2 ^ 32) 0 =
      .ok (if v.toInt < 0 then 3#32 * BitVec.ofNat 32 (10 ^ (itoaDigits v 10#32).length) + v
        else v) := by
  have hlength : (itoaText v 10#32).length < 2 ^ 32 := by
    have hdigits := length_itoaDigits_le v
    rw [itoaText, List.length_append]
    split_ifs <;> simp only [List.length_singleton, List.length_nil] <;> omega
  have hread : readString (cellsFrom (storeText m sp (itoaText v 10#32 ++ [0])) sp) (2 ^ 32) 0 =
      .ok (itoaText v 10#32) :=
    readString_eq_ok.mpr ⟨text_storeText m sp (itoaText_ne_zero v) hlength, hlength⟩
  rw [atoi, hread, ok_bind]
  exact congrArg Except.ok (foldl_itoaText v)

/-- `atoi` undoes `itoa` exactly if it returns the value from the text. -/
theorem atoiUndoes_iff {m : Mem} {v sp : Word} : AtoiUndoes m v sp ↔
    atoi (cellsFrom (storeText m sp (itoaText v 10#32 ++ [0])) sp) (2 ^ 32) 0 = .ok v := by
  have hwrite := itoaWrite_eq m v sp (by decide : 4 ≤ (10#32).toNat) (by decide)
  constructor
  · rintro ⟨len, m', hwrite', hread⟩
    obtain ⟨-, rfl⟩ := Prod.mk.inj (Except.ok.inj (hwrite.symm.trans hwrite'))
    exact hread
  · exact fun hread => ⟨_, _, hwrite, hread⟩

/-- **`atoi` undoes `itoa`** for the numbers that are not negative only. -/
theorem atoi_itoa_iff (m : Mem) (v sp : Word) : AtoiUndoes m v sp ↔ 0 ≤ v.toInt := by
  rw [atoiUndoes_iff, atoi_itoaText, Except.ok.injEq]
  by_cases hneg : v.toInt < 0
  · have hpower : ∀ k ≤ 10, 3#32 * BitVec.ofNat 32 (10 ^ k) ≠ 0 := by decide
    rw [if_pos hneg]
    refine iff_of_false (fun heq => ?_) (by omega)
    exact hpower _ (length_itoaDigits_le v) (by simpa using heq)
  · rw [if_neg hneg]
    exact iff_of_true rfl (by omega)

/-- Minus five is read as twenty-five. -/
theorem not_atoiUndoes_neg_five : ¬ AtoiUndoes (fun _ => 0) (-5#32) 0 ∧
    atoi (cellsFrom (storeText (fun _ => 0) 0 [0x2D, 0x35, 0]) 0) (2 ^ 32) 0 = .ok 25#32 := by
  have hread := atoi_itoaText (fun _ => 0) (-5#32) 0
  have htext : itoaText (-5#32) 10#32 ++ [0] = [0x2D, 0x35, 0] := by decide +kernel
  have hvalue : (if (-5#32).toInt < 0 then
      3#32 * BitVec.ofNat 32 (10 ^ (itoaDigits (-5#32) 10#32).length) + -5#32 else -5#32) =
      25#32 := by decide +kernel
  rw [hvalue] at hread
  refine ⟨fun h => ?_, ?_⟩
  · rw [atoiUndoes_iff, hread] at h
    exact absurd (Except.ok.inj h) (by decide)
  · rw [htext] at hread
    exact hread

end Muk
