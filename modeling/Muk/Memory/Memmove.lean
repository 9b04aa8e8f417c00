import Muk.Lib.Copies
import Muk.Lib.Record

/-!
# memmove

The bytes are copied upwards if the destination is below the source, and downwards otherwise.
In both cases a byte of the source that is also one of the destination is read before it is
written.
-/

namespace Muk

variable {dst src size x : Word} {n : ℕ}

/-- The loop of `memmove` that copies the last byte first. -/
def memmoveDown (m : Mem) (dst src : Word) : ℕ → Mem
  | 0 => m
  | i + 1 =>
    memmoveDown (store8 m (dst + BitVec.ofNat 32 i) (m (src + BitVec.ofNat 32 i))) dst src i

/-- `memmove`: the pointer that it returns, and memory. Its loop upwards is the one of `memcpy`. -/
def memmove (m : Mem) (dst src size : Word) : Word × Mem :=
  (dst, if dst < src then memcpy m dst src size.toNat else memmoveDown m dst src size.toNat)

/-- The bytes of a range. -/
def cellOf (a : Word) (i : ℕ) : Word := a + BitVec.ofNat 32 i

/-- A store updates one address. -/
theorem store8_eq_update (m : Mem) (a : Word) (b : Byte) :
    store8 m a b = Function.update m a b := by
  funext x
  rw [store8, Function.update_apply]

/-- `memcpy` copies its bytes upwards, from the first one to the last one. -/
theorem memcpy_eq_copyUp (m : Mem) (dst src : Word) (n : ℕ) :
    memcpy m dst src n = copyUp (cellOf dst) (cellOf src) n m := by
  induction n with
  | zero => rfl
  | succ n ih =>
    rw [memcpy, store8_eq_update, ih]
    rfl

/-- The other direction of `memmove` copies downwards. -/
theorem memmoveDown_eq_copyDown (m : Mem) (dst src : Word) (n : ℕ) :
    memmoveDown m dst src n = copyDown (cellOf dst) (cellOf src) n m := by
  induction n generalizing m with
  | zero => rfl
  | succ n ih =>
    rw [memmoveDown, store8_eq_update, ih]
    rfl

/-- The place of a byte in a range that does not wrap. -/
theorem cellOf_toNat {a : Word} {i : ℕ} (hfit : a.toNat + n ≤ 2 ^ 32) (hi : i < n) :
    (cellOf a i).toNat = a.toNat + i := by
  rw [cellOf, BitVec.toNat_add, toNat_ofNat_of_lt (by omega), Nat.mod_eq_of_lt (by omega)]

/-- Without a wrap, different offsets are different addresses. -/
theorem cellOf_inj (hfit : dst.toNat + n ≤ 2 ^ 32) :
    ∀ i < n, ∀ j < n, cellOf dst i = cellOf dst j → i = j := by
  intro i hi j hj heq
  have hplace := congrArg BitVec.toNat heq
  rw [cellOf_toNat hfit hi, cellOf_toNat hfit hj] at hplace
  omega

/-- All bytes are copied as they were before the call. -/
theorem memmove_moved (m : Mem) (hdst : dst.toNat + size.toNat ≤ 2 ^ 32)
    (hsrc : src.toNat + size.toNat ≤ 2 ^ 32) :
    Moved m (memmove m dst src size).2 (cellOf dst) (cellOf src) (· < size.toNat) := by
  rw [memmove]
  by_cases hbelow : dst < src
  · -- The source is ahead of the bytes written so far.
    rw [if_pos hbelow, memcpy_eq_copyUp]
    refine copyUp_moved (cellOf_inj hdst) (fun i hi j hj heq => ?_) m
    have hplace := congrArg BitVec.toNat heq
    rw [cellOf_toNat hsrc hi, cellOf_toNat hdst (by omega : j < size.toNat)] at hplace
    rw [BitVec.lt_def] at hbelow
    omega
  · rw [if_neg hbelow, memmoveDown_eq_copyDown]
    refine copyDown_moved (cellOf_inj hdst) (fun i hi j hj hij heq => ?_) m
    have hplace := congrArg BitVec.toNat heq
    rw [cellOf_toNat hsrc hi, cellOf_toNat hdst hj] at hplace
    rw [BitVec.lt_def] at hbelow
    omega

/-- **Bytes are moved** as they were before the call, and no byte outside the destination
changes. -/
theorem memmove_spec (m : Mem) (hdst : dst.toNat + size.toNat ≤ 2 ^ 32)
    (hsrc : src.toNat + size.toNat ≤ 2 ^ 32) :
    (∀ i < size.toNat, (memmove m dst src size).2 (dst + BitVec.ofNat 32 i) =
        m (src + BitVec.ofNat 32 i)) ∧
      ∀ x : Word, x.toNat < dst.toNat ∨ dst.toNat + size.toNat ≤ x.toNat →
        (memmove m dst src size).2 x = m x := by
  have h := memmove_moved m hdst hsrc
  refine ⟨h.copied, fun x hx => h.frame x fun i hi heq => ?_⟩
  rw [heq, cellOf_toNat hdst hi] at hx
  omega

/-- Three bytes moved up by one. -/
theorem memmove_up_one :
    (∀ i < 3, (memmove (fun x => x.setWidth 8) 9#32 8#32 3#32).2 (9#32 + BitVec.ofNat 32 i) =
        (8#32 + BitVec.ofNat 32 i).setWidth 8) ∧
      ∀ x : Word, x.toNat < 9 ∨ 12 ≤ x.toNat →
        (memmove (fun x => x.setWidth 8) 9#32 8#32 3#32).2 x = x.setWidth 8 :=
  memmove_spec (fun x => x.setWidth 8) (by decide : (9#32).toNat + (3#32).toNat ≤ 2 ^ 32)
    (by decide : (8#32).toNat + (3#32).toNat ≤ 2 ^ 32)

end Muk
