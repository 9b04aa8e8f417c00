import Mathlib.Logic.Function.Basic
import Muk.Lib.Arrays
import Muk.Lib.WordBits
import Muk.Lib.ByteMemory

/-!
# std::bitset

A `bitset<n>` has a whole `int` for each of its bits, and uses one of them for 32 bits. Bit
numbers are `int`s: they are divided towards zero, and a shift takes the count modulo 32.
-/

namespace Muk

/-- `bitset<n>` -/
structure Bitset (n : ℕ) where
  bitArray : Vector Word n

namespace Bitset

variable {n : ℕ}

/-- `numBits = CHAR_BIT * sizeof(int)` -/
def numBits : Word := 32

/-- `1U << count` -/
def shiftOne (count : Word) : Word := 1#32 <<< (count % 32#32)

/-- The index `bit/numBits`, if it is one of the array. -/
def chunk (n : ℕ) (bit : Word) : Except ArrayFault (Fin n) :=
  let index := (bit.sdiv numBits).toInt
  if h : 0 ≤ index ∧ index.toNat < n then .ok ⟨index.toNat, h.2⟩ else .error .outOfBounds

/-- An assignment to `bitArray[bit/numBits]`. -/
def setWord (b : Bitset n) (bit : Word) (f : Word → Word) : Except ArrayFault (Bitset n) := do
  let i ← chunk n bit
  .ok { bitArray := b.bitArray.set i (f b.bitArray[i]) }

/-- `set` -/
def set (b : Bitset n) (bit : Word) : Except ArrayFault (Bitset n) :=
  b.setWord bit (· ||| shiftOne (bit.srem numBits))

/-- `reset` -/
def reset (b : Bitset n) (bit : Word) : Except ArrayFault (Bitset n) :=
  b.setWord bit (· &&& ~~~shiftOne (bit.srem numBits))

/-- `flip` -/
def flip (b : Bitset n) (bit : Word) : Except ArrayFault (Bitset n) :=
  b.setWord bit (· ^^^ shiftOne (bit.srem numBits))

/-- `test` -/
def test (b : Bitset n) (bit : Word) : Except ArrayFault Bool := do
  let i ← chunk n bit
  .ok (b.bitArray[i] &&& shiftOne (bit.srem numBits) ≠ 0)

/-- `bitset()` -/
def construct : Bitset n := { bitArray := Vector.replicate n 0 }

/-- `bitset(unsigned long initialSet)` -/
def ofWord (initialSet : Word) : Except ArrayFault (Bitset n) :=
  forLoop (fun i b =>
    if initialSet &&& shiftOne (BitVec.ofNat 32 i) ≠ 0 then b.set (BitVec.ofNat 32 i) else .ok b)
    0 n construct

end Bitset

/-! ## Arrays of booleans -/

/-- The number of a bit in a `bitset<n>`. -/
structure BitNumber (n : ℕ) where
  bit : Word
  nonneg : 0 ≤ bit.toInt
  lt : bit.toInt < n

namespace BitNumber

variable {n : ℕ}

/-- Its place in an array of booleans. -/
def index (j : BitNumber n) : Fin n :=
  ⟨j.bit.toInt.toNat, by have := j.nonneg; have := j.lt; omega⟩

end BitNumber

/-- A call that changes a bit. -/
inductive BitsetCall (n : ℕ) where
  | set (bit : BitNumber n)
  | reset (bit : BitNumber n)
  | flip (bit : BitNumber n)

namespace BitsetCall

variable {n : ℕ}

/-- The call on a bitset. -/
def run (b : Bitset n) : BitsetCall n → Except ArrayFault (Bitset n)
  | set j => b.set j.bit
  | reset j => b.reset j.bit
  | flip j => b.flip j.bit

/-- The call on an array of booleans. -/
def apply (a : Fin n → Bool) : BitsetCall n → Fin n → Bool
  | set j => Function.update a j.index true
  | reset j => Function.update a j.index false
  | flip j => Function.update a j.index !(a j.index)

end BitsetCall

namespace Bitset

variable {n : ℕ} {b b' : Bitset n} {a : Fin n → Bool} {j : BitNumber n} {v : Word}

/-- A word, zero past the end of the array. -/
def word (b : Bitset n) (i : ℕ) : Word := b.bitArray[i]?.getD 0

/-- The bits of the words are the booleans of an array. -/
def Represents (b : Bitset n) (a : Fin n → Bool) : Prop := ∀ j : Fin n, wordBit b.word j = a j

/-- A bit number is not negative as a signed word. -/
theorem toNat_bit (j : BitNumber n) : j.bit.toNat = j.index.val ∧ j.bit.msb = false := by
  have hmsb : j.bit.msb = false := by
    rw [BitVec.msb_eq_toInt, decide_eq_false_iff_not]
    exact Int.not_lt.mpr j.nonneg
  refine ⟨?_, hmsb⟩
  change j.bit.toNat = j.bit.toInt.toNat
  rw [BitVec.toInt_eq_toNat_of_msb hmsb, Int.toNat_natCast]

/-- One shifted by a bit number is the power of two. -/
theorem shiftOne_ofNat {i : ℕ} (hi : i < 32) :
    shiftOne (BitVec.ofNat 32 i) = BitVec.twoPow 32 i := by
  have hcount : BitVec.ofNat 32 i % 32#32 = BitVec.ofNat 32 i := by
    apply BitVec.eq_of_toNat_eq
    rw [BitVec.toNat_umod, BitVec.toNat_ofNat]
    change i % 2 ^ 32 % 32 = i % 2 ^ 32
    omega
  rw [shiftOne, hcount, BitVec.shiftLeft_eq', BitVec.toNat_ofNat, BitVec.twoPow_eq,
    Nat.mod_eq_of_lt (by omega)]

/-- The word and the mask of a bit. -/
theorem bit_parts (j : BitNumber n) :
    (∃ i : Fin n, chunk n j.bit = .ok i ∧ i.val = j.index.val / 32) ∧
      shiftOne (j.bit.srem numBits) = BitVec.twoPow 32 (j.index.val % 32) := by
  obtain ⟨hnat, hmsb⟩ := toNat_bit j
  have hbits : numBits.msb = false := rfl
  have hlt := j.index.isLt
  constructor
  · have hdiv : (j.bit.sdiv numBits).toInt = ((j.index.val / 32 : ℕ) : ℤ) := by
      have hword := j.bit.isLt
      rw [BitVec.sdiv_eq, hmsb, hbits, ← hnat]
      change (j.bit.udiv numBits).toInt = _
      rw [BitVec.toInt_eq_toNat_of_lt]
      · rfl
      · change 2 * (j.bit.toNat / 32) < 2 ^ 32
        omega
    refine ⟨⟨j.index.val / 32, by omega⟩, ?_, rfl⟩
    simp only [chunk, hdiv, Int.toNat_natCast]
    exact dif_pos ⟨Int.natCast_nonneg _, by omega⟩
  · have hrem : j.bit.srem numBits = BitVec.ofNat 32 (j.index.val % 32) := by
      apply BitVec.eq_of_toNat_eq
      rw [BitVec.srem_eq, hmsb, hbits, ← hnat]
      change j.bit.toNat % 32 = j.bit.toNat % 32 % 2 ^ 32
      omega
    rw [hrem, shiftOne_ofNat (by omega)]

/-- The word of a bit is one of the array. -/
theorem word_val (b : Bitset n) (i : Fin n) : b.word i = b.bitArray[i] := by
  simp [word]

/-- A write to the word of a bit that changes the bit alone. -/
theorem setWord_represents {f : Word → Word} (g : Bool → Bool) (h : b.Represents a)
    (hf : ∀ v i, i < 32 →
      (f v).getLsbD i = if i = j.index.val % 32 then g (v.getLsbD i) else v.getLsbD i) :
    ∃ b', b.setWord j.bit f = .ok b' ∧
      b'.Represents (Function.update a j.index (g (a j.index))) := by
  obtain ⟨⟨i, hchunk, hi⟩, -⟩ := bit_parts j
  refine ⟨_, by rw [setWord, hchunk]; rfl, fun k => ?_⟩
  have hword : ∀ m, word { bitArray := b.bitArray.set i (f b.bitArray[i]) } m =
      if m = j.index.val / 32 then f (b.word m) else b.word m := by
    intro m
    rw [← hi]
    by_cases hm : m = i
    · rw [if_pos hm, hm, word_val]
      simp [word]
    · rw [if_neg hm]
      simp [word, Ne.symm hm]
  rw [wordBit_update (by decide) hword hf, h k, Function.update_apply]
  by_cases hk : k = j.index
  · rw [if_pos (congrArg Fin.val hk), if_pos hk, hk]
  · rw [if_neg fun heq => hk (Fin.ext heq), if_neg hk]

/-- `set` makes one boolean true, and leaves the others as they are. -/
theorem set_represents (h : b.Represents a) (j : BitNumber n) :
    ∃ b', b.set j.bit = .ok b' ∧ b'.Represents (Function.update a j.index true) := by
  rw [set, (bit_parts j).2]
  exact setWord_represents (fun _ => true) h fun v i hi => getLsbD_or_twoPow hi

/-- `reset` makes one boolean false, and leaves the others as they are. -/
theorem reset_represents (h : b.Represents a) (j : BitNumber n) :
    ∃ b', b.reset j.bit = .ok b' ∧ b'.Represents (Function.update a j.index false) := by
  rw [reset, (bit_parts j).2]
  exact setWord_represents (fun _ => false) h fun v i hi => getLsbD_and_not_twoPow hi

/-- `flip` negates one boolean, and leaves the others as they are. -/
theorem flip_represents (h : b.Represents a) (j : BitNumber n) :
    ∃ b', b.flip j.bit = .ok b' ∧ b'.Represents (Function.update a j.index !(a j.index)) := by
  rw [flip, (bit_parts j).2]
  exact setWord_represents Bool.not h fun v i hi => getLsbD_xor_twoPow hi

/-- A test reads a bit of a word. -/
theorem test_eq {bit : Word} {i : Fin n} {k : ℕ} (hchunk : chunk n bit = .ok i)
    (hmask : shiftOne (bit.srem numBits) = BitVec.twoPow 32 k) (hk : k < 32) :
    b.test bit = .ok ((b.word i).getLsbD k) := by
  rw [test, hchunk, hmask, ok_bind, word_val]
  simp only [and_twoPow_ne_zero hk, Bool.decide_eq_true]

/-- A test of a bit returns the boolean that the set has at its number. -/
theorem test_represents (h : b.Represents a) (j : BitNumber n) :
    b.test j.bit = .ok (a j.index) := by
  obtain ⟨⟨i, hchunk, hi⟩, hmask⟩ := bit_parts j
  rw [test_eq hchunk hmask (by omega), ← h j.index, wordBit, hi]

/-- A call does to the booleans what it says. -/
theorem run_represents (h : b.Represents a) (call : BitsetCall n) :
    ∃ b', call.run b = .ok b' ∧ b'.Represents (call.apply a) := by
  cases call with
  | set j => exact set_represents h j
  | reset j => exact reset_represents h j
  | flip j => exact flip_represents h j

/-- Calls do to the booleans what they say. -/
theorem runEvents_represents (h : b.Represents a) (calls : List (BitsetCall n)) :
    ∃ b', runEvents BitsetCall.run b calls = .ok b' ∧
      b'.Represents (calls.foldl BitsetCall.apply a) := by
  induction calls generalizing b a with
  | nil => exact ⟨b, rfl, h⟩
  | cons call calls ih =>
    obtain ⟨t, ht, hrep⟩ := run_represents h call
    rw [runEvents_cons, ht, ok_bind, List.foldl_cons]
    exact ih hrep

/-- A new bitset has all booleans false. -/
theorem construct_represents : (construct : Bitset n).Represents fun _ => false := by
  intro j
  have hword : word (construct : Bitset n) (j.val / 32) = 0 := by
    rw [word_val construct ⟨j.val / 32, by omega⟩]
    simp [construct]
  rw [wordBit, hword]
  simp

/-- The number of a bit of the first word. -/
theorem exists_bitNumber (hn : n ≤ 32) (i : Fin n) :
    ∃ j : BitNumber n, j.bit = BitVec.ofNat 32 i.val ∧ j.index = i := by
  have hlt := i.isLt
  have hnat : (BitVec.ofNat 32 i.val).toNat = i.val := by
    rw [BitVec.toNat_ofNat, Nat.mod_eq_of_lt (by omega)]
  have hint : (BitVec.ofNat 32 i.val).toInt = i.val := by
    rw [BitVec.toInt_eq_toNat_of_lt (by omega), hnat]
  refine ⟨⟨BitVec.ofNat 32 i.val, by omega, by omega⟩, rfl, Fin.ext ?_⟩
  change (BitVec.ofNat 32 i.val).toInt.toNat = i.val
  rw [hint, Int.toNat_natCast]

/-- The bits of a word below the `i`-th one. -/
def lowBits (n : ℕ) (v : Word) (i : ℕ) (j : Fin n) : Bool := decide (j.val < i) && v.getLsbD j

/-- One bit more of a word is one boolean more. -/
theorem lowBits_succ {i : ℕ} (hi : i < n) :
    lowBits n v (i + 1) = Function.update (lowBits n v i) ⟨i, hi⟩ (v.getLsbD i) := by
  funext j
  rw [Function.update_apply]
  by_cases hj : j = ⟨i, hi⟩
  · simp [lowBits, hj]
  · have hne : j.val ≠ i := fun heq => hj (Fin.ext heq)
    have hlt : j.val < i + 1 ↔ j.val < i := by omega
    simp [lowBits, hj, hlt]

/-- A pass of the constructor copies one bit. -/
theorem ofWord_pass {i : ℕ} (hn : n ≤ 32) (hi : i < n) (hb : b.Represents (lowBits n v i)) :
    ∃ b', (if v &&& shiftOne (BitVec.ofNat 32 i) ≠ 0 then b.set (BitVec.ofNat 32 i) else .ok b) =
        .ok b' ∧ b'.Represents (lowBits n v (i + 1)) := by
  obtain ⟨j, hbit, hj⟩ := exists_bitNumber hn ⟨i, hi⟩
  have htest : v &&& shiftOne (BitVec.ofNat 32 i) ≠ 0 ↔ v.getLsbD i = true := by
    rw [shiftOne_ofNat (by omega)]
    exact and_twoPow_ne_zero (by omega)
  rw [lowBits_succ hi]
  by_cases hv : v.getLsbD i = true
  · rw [if_pos (htest.mpr hv), hv, ← hbit, ← hj]
    exact set_represents hb j
  · have hclear : lowBits n v i ⟨i, hi⟩ = v.getLsbD i := by simp [lowBits, hv]
    rw [if_neg (mt htest.mp hv), ← hclear, Function.update_eq_self]
    exact ⟨b, rfl, hb⟩

/-- The constructor from a word copies the bits of the word. -/
theorem ofWord_represents (hn : n ≤ 32) (v : Word) :
    ∃ b : Bitset n, ofWord v = .ok b ∧ b.Represents fun j => v.getLsbD j := by
  have hinit : (construct : Bitset n).Represents (lowBits n v 0) := by
    intro j
    rw [construct_represents j]
    simp [lowBits]
  have hrun : ∃ b : Bitset n, ofWord v = .ok b ∧ b.Represents (lowBits n v n) := by
    rw [ofWord]
    apply forLoop_invariant (fun i (b : Bitset n) => b.Represents (lowBits n v i)) hinit
    intro i hi b hb
    rw [Nat.zero_add]
    exact ofWord_pass hn hi hb
  obtain ⟨b, hrun, hb⟩ := hrun
  refine ⟨b, hrun, fun j => ?_⟩
  rw [hb j]
  simp [lowBits]

/-- **Independent booleans.** From the empty bitset, any calls use words of the array only and
leave for each bit what they leave in an array of booleans; a bitset of at most 32 bits that is
made from a word has the bits of the word. -/
theorem bitset_booleans :
    (∀ calls : List (BitsetCall n), ∃ b : Bitset n,
      runEvents BitsetCall.run construct calls = .ok b ∧
        ∀ j : BitNumber n,
          b.test j.bit = .ok (calls.foldl BitsetCall.apply (fun _ => false) j.index)) ∧
    (n ≤ 32 → ∀ v : Word, ∃ b : Bitset n,
      ofWord v = .ok b ∧ ∀ j : BitNumber n, b.test j.bit = .ok (v.getLsbD j.index)) := by
  constructor
  · intro calls
    obtain ⟨b, hrun, hb⟩ := runEvents_represents construct_represents calls
    exact ⟨b, hrun, test_represents hb⟩
  · intro hn v
    obtain ⟨b, hrun, hb⟩ := ofWord_represents hn v
    exact ⟨b, hrun, test_represents hb⟩

/-- The bitset of a mask has the bits of the mask. -/
theorem bitset_mask : ∃ b : Bitset 32,
    ofWord 0x5542AA8A = .ok b ∧ b.test 30 = .ok true ∧ b.test 31 = .ok false := by
  obtain ⟨b, hrun, htest⟩ := (bitset_booleans (n := 32)).2 (by decide) 0x5542AA8A
  have hset := htest ⟨30, by decide, by decide⟩
  have hclear := htest ⟨31, by decide, by decide⟩
  exact ⟨b, hrun, hset.trans (congrArg _ (by decide)), hclear.trans (congrArg _ (by decide))⟩

end Bitset

end Muk
