import Mathlib.Data.Nat.Digits.Lemmas
import Muk.Lib.ByteMemory

/-!
# Numerals

A numeral is the text of a number in some base, most significant digit first. Code makes it
from the other end: each pass of a loop puts one more digit before those it has.
-/

namespace Muk

/-- The digits of a number, put before those in `tail`, for at most so many passes. -/
def digitLoop (digit : ℕ → Byte) (base : ℕ) : ℕ → ℕ → List Byte → List Byte
  | 0, _, tail => tail
  | fuel + 1, n, tail =>
    if n = 0 then tail else digitLoop digit base fuel (n / base) (digit (n % base) :: tail)

/-- The numeral of a number. Zero has one digit. -/
def numeral (digit : ℕ → Byte) (base n : ℕ) : List Byte :=
  if n = 0 then [digit 0] else ((Nat.digits base n).map digit).reverse

variable {digit : ℕ → Byte} {base fuel n : ℕ} {tail : List Byte}

/-- The loop puts the digits of its number before the tail. -/
theorem digitLoop_eq (hbase : 1 < base) (hn : n < base ^ fuel) :
    digitLoop digit base fuel n tail = ((Nat.digits base n).map digit).reverse ++ tail := by
  induction fuel generalizing n tail with
  | zero =>
    obtain rfl : n = 0 := by simpa using hn
    rw [Nat.digits_zero]
    rfl
  | succ fuel ih =>
    by_cases hzero : n = 0
    · subst hzero
      rw [Nat.digits_zero]
      rfl
    · have hdiv : n / base < base ^ fuel := by
        rw [Nat.div_lt_iff_lt_mul (by omega)]
        rwa [pow_succ] at hn
      rw [digitLoop, if_neg hzero, ih hdiv, Nat.digits_def' hbase (Nat.pos_of_ne_zero hzero)]
      simp

/-- For a number that is not zero, the loop makes its numeral. -/
theorem digitLoop_eq_numeral (hbase : 1 < base) (hn : n < base ^ fuel) (hzero : n ≠ 0) :
    digitLoop digit base fuel n [] = numeral digit base n := by
  rw [digitLoop_eq hbase hn, List.append_nil, numeral, if_neg hzero]

/-- A numeral has a digit, also that of zero. -/
theorem numeral_ne_nil (hbase : 1 < base) : numeral digit base n ≠ [] := by
  by_cases hzero : n = 0
  · simp [numeral, hzero]
  · rw [numeral, if_neg hzero, Nat.digits_def' hbase (Nat.pos_of_ne_zero hzero)]
    simp

/-- The digits of a numeral are those of the base. -/
theorem mem_numeral (hbase : 1 < base) {b : Byte} (hb : b ∈ numeral digit base n) :
    ∃ d < base, b = digit d := by
  by_cases hzero : n = 0
  · rw [numeral, if_pos hzero, List.mem_singleton] at hb
    exact ⟨0, by omega, hb⟩
  · rw [numeral, if_neg hzero, List.mem_reverse, List.mem_map] at hb
    obtain ⟨d, hd, rfl⟩ := hb
    exact ⟨d, Nat.digits_lt_base hbase hd, rfl⟩

/-- The first digit is zero for the number zero only. -/
theorem head?_numeral (hbase : 1 < base) (hzero : n ≠ 0) :
    ∃ d, 0 < d ∧ d < base ∧ (numeral digit base n).head? = some (digit d) := by
  have hne : Nat.digits base n ≠ [] := Nat.digits_ne_nil_iff_ne_zero.mpr hzero
  refine ⟨(Nat.digits base n).getLast hne,
    Nat.pos_of_ne_zero (Nat.getLast_digit_ne_zero base hzero),
    Nat.digits_lt_base hbase (List.getLast_mem hne), ?_⟩
  rw [numeral, if_neg hzero, List.head?_reverse, List.getLast?_map,
    List.getLast?_eq_some_getLast hne]
  rfl

/-- A numeral has as many digits as the number needs. -/
theorem length_numeral_le {k : ℕ} (hbase : 1 < base) (hk : 0 < k) (hn : n < base ^ k) :
    (numeral digit base n).length ≤ k := by
  by_cases hzero : n = 0
  · rw [numeral, if_pos hzero]
    exact hk
  · rw [numeral, if_neg hzero, List.length_reverse, List.length_map]
    exact (Nat.digits_length_le_iff hbase n).mpr hn

/-! ## Reading numerals -/

variable {value : Byte → ℕ} {text text' : List Byte}

/-- The number that a text stands for, with the values of its digits. -/
def ofNumeral (value : Byte → ℕ) (base : ℕ) (text : List Byte) : ℕ :=
  text.foldl (fun n b => n * base + value b) 0

/-- The empty numeral stands for zero. -/
@[simp] theorem ofNumeral_nil : ofNumeral value base [] = 0 := rfl

/-- One more digit at the end multiplies the number by the base and adds the value of the digit. -/
theorem ofNumeral_append_singleton (b : Byte) :
    ofNumeral value base (text ++ [b]) = ofNumeral value base text * base + value b := by
  rw [ofNumeral, List.foldl_append]
  rfl

/-- The number of a text in two parts is that of the first, moved by the length of the second, and
that of the second. -/
theorem ofNumeral_append :
    ofNumeral value base (text ++ text') =
      ofNumeral value base text * base ^ text'.length + ofNumeral value base text' := by
  induction text' using List.reverseRecOn with
  | nil => simp
  | append_singleton text' b ih =>
    rw [← List.append_assoc, ofNumeral_append_singleton, ofNumeral_append_singleton, ih,
      List.length_append, List.length_singleton, pow_succ]
    ring

/-- The numeral of another number than zero has no leading zero, if its digits have their values. -/
theorem head?_numeral_ne {nought : Byte} (hbase : 1 < base) (hn : n ≠ 0)
    (hvalue : ∀ d < base, value (digit d) = d) (hnought : value nought = 0) :
    (numeral digit base n).head? ≠ some nought := by
  intro hhead
  obtain ⟨d, hpos, hd, hfirst⟩ : ∃ d, 0 < d ∧ d < base ∧
      (numeral digit base n).head? = some (digit d) := head?_numeral hbase hn
  rw [hfirst] at hhead
  have hdigit := congrArg value (Option.some.inj hhead)
  rw [hvalue d hd, hnought] at hdigit
  exact Nat.ne_of_gt hpos hdigit

/-- A numeral is read as its number. -/
theorem ofNumeral_numeral (hbase : 1 < base) (hvalue : ∀ d < base, value (digit d) = d) (n : ℕ) :
    ofNumeral value base (numeral digit base n) = n := by
  by_cases hzero : n = 0
  · rw [numeral, if_pos hzero, ← List.nil_append [digit 0], ofNumeral_append_singleton,
      hvalue 0 (by omega), hzero]
    simp
  · have hdigits (ds : List ℕ) (h : ∀ d ∈ ds, d < base) :
        ofNumeral value base (ds.map digit).reverse = Nat.ofDigits base ds := by
      induction ds with
      | nil => rfl
      | cons d ds ih =>
        rw [List.map_cons, List.reverse_cons, ofNumeral_append_singleton,
          ih fun e he => h e (List.mem_cons_of_mem _ he), hvalue d (h d List.mem_cons_self),
          Nat.ofDigits_cons, Nat.mul_comm, Nat.add_comm]
    rw [numeral, if_neg hzero, hdigits _ fun d hd => Nat.digits_lt_base hbase hd,
      Nat.ofDigits_digits]

/-- A number with one more digit is over a limit exactly if the number is over the quotient of the
limit, or equal to it with a digit over the remainder. -/
theorem lt_mul_add_iff {limit d : ℕ} (hd : d < base) :
    limit < n * base + d ↔ limit / base < n ∨ (n = limit / base ∧ limit % base < d) := by
  have hlimit := Nat.div_add_mod' limit base
  have hmod := Nat.mod_lt limit (Nat.zero_lt_of_lt hd)
  rcases Nat.lt_trichotomy n (limit / base) with hlt | heq | hgt
  · have hle := Nat.mul_le_mul_right base hlt
    rw [Nat.succ_mul] at hle
    omega
  · rw [← heq] at hlimit
    omega
  · have hle := Nat.mul_le_mul_right base hgt
    rw [Nat.succ_mul] at hle
    omega

end Muk
