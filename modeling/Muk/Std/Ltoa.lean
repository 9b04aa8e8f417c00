import Muk.Lib.Arrays
import Muk.Std.Digits
import Muk.Std.Format

/-!
# ltoa

`ltoa` fills 65 characters of scratch from their end, and copies as many of them as a counter
says. The counter starts at one for the NUL, and has a value of its own for the number zero.
-/

namespace Muk

variable {room n : ℕ} {tail : List Byte} {v : Word}

/-- The loop of `ltoa` with the room that is left on `buf` and the counter of characters. -/
def ltoaPush (base : Word) : ℕ → BitVec 64 → ℕ → List Byte → Except ArrayFault (ℕ × List Byte)
  | 0, uarg, i, tail => if uarg = 0 then .ok (i, tail) else .error .outOfBounds
  | room + 1, uarg, i, tail =>
    if uarg = 0 then .ok (i, tail)
    else
      let res := ldiv (uarg.setWidth 32) base
      ltoaPush base room (res.1.signExtend 64) (i + 1) (ltoaDigit res.2 :: tail)

/-- `ltoa`: the pointer that it returns, and memory. The NUL is the last character of `buf`. -/
def ltoaWrite (m : Mem) (n : BitVec 64) (str base : Word) : Except ArrayFault (Word × Mem) := do
  let base := if (36#32).slt base ∨ base.slt 2#32 then 10#32 else base
  let (m, head) := if base = 10#32 then (store8 m str 0x2D, str + 1#32) else (m, str)
  let uarg := if base = 10#32 then -n else n
  let (i, tail) ← if uarg ≠ 0 then ltoaPush base 64 uarg 1 [] else .ok (2, [0x30])
  .ok (str, storeText m head ((tail ++ [0]).take i))

/-- A pass of the loop, on a number that is zero only if its lower half is. -/
theorem ltoaPush_step {uarg : BitVec 64} (hzero : uarg ≠ 0) (i : ℕ) :
    ltoaPush 16#32 (room + 1) uarg i tail =
      ltoaPush 16#32 room (BitVec.ofNat 64 ((uarg.setWidth 32).toNat / 16)) (i + 1)
        (digitChar ((uarg.setWidth 32).toNat % 16) :: tail) := by
  rw [ltoaPush, if_neg hzero]
  simp only [ldiv_sixteen, signExtend_quotient, ltoaDigit_eq _ (Nat.mod_lt _ (by omega : 16 > 0))]

/-- The loop makes the digits of a number that has room for them, and counts them. -/
theorem ltoaPush_eq (hn : n < 16 ^ room) (hword : n < 2 ^ 32) (i : ℕ) (tail : List Byte) :
    ltoaPush 16#32 room (BitVec.ofNat 64 n) i tail = .ok (i + (Nat.digits 16 n).length,
      ((Nat.digits 16 n).map digitChar).reverse ++ tail) := by
  induction room generalizing n i tail with
  | zero =>
    obtain rfl : n = 0 := by simpa using hn
    rw [Nat.digits_zero]
    rfl
  | succ room ih =>
    by_cases hzero : n = 0
    · subst hzero
      rw [Nat.digits_zero]
      rfl
    · rw [pow_succ] at hn
      rw [ltoaPush_step (ofNat_64_ne_zero hzero hword), setWidth_ofNat_64 hword,
        ih (by omega) (by omega), Nat.digits_def' (by omega) (Nat.pos_of_ne_zero hzero)]
      simp [Nat.add_assoc, Nat.add_comm 1]

/-- The digits and the counter for an `int`, which is extended by its sign. -/
theorem ltoaPush_hexadecimal (hzero : v.signExtend 64 ≠ 0) :
    ltoaPush 16#32 64 (v.signExtend 64) 1 [] =
      .ok ((hexadecimal v).length + 1, hexadecimal v) := by
  have hv : v.toNat ≠ 0 := mt signExtend_eq_zero_iff.mpr hzero
  have hlt := v.isLt
  rw [ltoaPush_step hzero, setWidth_signExtend, ltoaPush_eq (by omega) (by omega), hexadecimal,
    numeral, if_neg hv, Nat.digits_def' (by omega) (Nat.pos_of_ne_zero hv)]
  simp only [List.map_cons, List.reverse_cons, List.length_append, List.length_reverse,
    List.length_map, List.length_singleton, Except.ok.injEq, Prod.mk.injEq, and_true]
  omega

/-- What `ltoa` writes for an `int`. -/
theorem ltoaWrite_eq (m : Mem) (v str : Word) :
    ltoaWrite m (v.signExtend 64) str 16#32 =
      .ok (str, storeText m str (hexadecimal v ++ [0])) := by
  have hsmall : ¬ ((36#32).slt 16#32 = true ∨ (16#32).slt 2#32 = true) := by decide
  have hten : ¬ 16#32 = 10#32 := by decide
  simp only [ltoaWrite, if_neg hsmall, if_neg hten]
  by_cases hzero : v.signExtend 64 = 0
  · rw [if_neg (not_not.mpr hzero), ok_bind, hexadecimal, signExtend_eq_zero_iff.mp hzero]
    rfl
  · rw [if_pos hzero, ltoaPush_hexadecimal hzero, ok_bind, List.take_of_length_le]
    rw [List.length_append, List.length_singleton]

/-! ## The numeral -/

/-- The number of an upper-case digit is its value. -/
theorem digitNumber_digitChar : ∀ d < 16, digitNumber (digitChar d) = d := by decide

/-- A word has at most eight hexadecimal digits, so that a buffer of nine characters has room. -/
theorem length_hexadecimal_le (v : Word) : (hexadecimal v).length ≤ 8 :=
  length_numeral_le (by omega) (by omega) v.isLt

/-- The digits are read as the bits of the number. -/
theorem ofNumeral_hexadecimal (v : Word) : ofNumeral digitNumber 16 (hexadecimal v) = v.toNat :=
  ofNumeral_numeral (by omega) digitNumber_digitChar v.toNat

/-- The first digit is zero for the number zero only. -/
theorem head?_hexadecimal (hv : v ≠ 0) : (hexadecimal v).head? ≠ some 0x30 := by
  apply head?_numeral_ne (by omega) _ digitNumber_digitChar (by decide)
  exact fun h => hv (BitVec.eq_of_toNat_eq h)

/-- **`ltoa` is exact in base sixteen** for every `int`: it stays in its scratch buffer, and writes
the numeral of the bits of the number and a NUL to the first nine bytes at most. Different
numbers have different numerals. -/
theorem ltoa_exact (m : Mem) (v str : Word) :
    ltoaWrite m (v.signExtend 64) str 16#32 =
        .ok (str, storeText m str (hexadecimal v ++ [0])) ∧
      (∀ x : Word, 9 ≤ (x - str).toNat → storeText m str (hexadecimal v ++ [0]) x = m x) ∧
      (hexadecimal v).length ≤ 8 ∧
      (∀ b ∈ hexadecimal v, ∃ d < 16, b = digitChar d) ∧
      (v = 0 → hexadecimal v = [0x30]) ∧ (v ≠ 0 → (hexadecimal v).head? ≠ some 0x30) ∧
      ofNumeral digitNumber 16 (hexadecimal v) = v.toNat ∧
      ∀ w, w ≠ v → hexadecimal w ≠ hexadecimal v := by
  have hlength := length_hexadecimal_le v
  have hall : (hexadecimal v ++ [0]).length = (hexadecimal v).length + 1 := List.length_append
  refine ⟨ltoaWrite_eq m v str, fun x hx => ?_, hlength, fun b hb => mem_numeral (by omega) hb,
    fun hzero => ?_, head?_hexadecimal, ofNumeral_hexadecimal v, fun w hne heq => hne ?_⟩
  · rw [storeText_apply (by omega), List.getElem?_eq_none (by omega)]
    rfl
  · rw [hzero]
    rfl
  · have hnumber := congrArg (ofNumeral digitNumber 16) heq
    rw [ofNumeral_hexadecimal, ofNumeral_hexadecimal] at hnumber
    exact BitVec.eq_of_toNat_eq hnumber

end Muk
