import Mathlib.Algebra.Group.Int.Defs
import Mathlib.Algebra.Group.Nat.Defs
import Muk.Lib.Loop

/-!
# Byte memory of a 32-bit little-endian machine

A memory assigns a byte to every 32-bit address. Words are stored least
significant byte first, at any alignment. The lemmas say what a store changes:
the four bytes it names, and nothing else.
-/

namespace Muk

/-- An address, or any other 32-bit machine word. -/
abbrev Word := BitVec 32

/-- A byte of memory. -/
abbrev Byte := BitVec 8

/-- Membership in a list of bytes is decided by comparing them. -/
instance : LawfulBEq Byte := inferInstanceAs (LawfulBEq (BitVec 8))

/-- The contents of a 32-bit address space. -/
abbrev Mem := Word → Byte

/-- A number that fits into a bit vector is what the vector holds. -/
theorem toNat_ofNat_of_lt {w n : ℕ} (h : n < 2 ^ w) : (BitVec.ofNat w n).toNat = n := by
  rw [BitVec.toNat_ofNat, Nat.mod_eq_of_lt h]

/-- Byte `i` of a word, counted from the least significant one. -/
def byteAt (v : Word) (i : ℕ) : Byte := v.extractLsb' (8 * i) 8

/-- The word whose bytes are given, the least significant one last. -/
def ofBytes (b3 b2 b1 b0 : Byte) : Word := (b3 ++ b2 ++ b1 ++ b0).cast rfl

/-- A word is made of its four bytes. -/
@[simp] theorem ofBytes_byteAt (v : Word) :
    ofBytes (byteAt v 3) (byteAt v 2) (byteAt v 1) (byteAt v 0) = v := by
  apply BitVec.eq_of_getLsbD_eq
  intro i hi
  simp only [ofBytes, byteAt, BitVec.getLsbD_cast, BitVec.getLsbD_append,
    BitVec.getLsbD_extractLsb']
  grind

/-- Write one byte. -/
def store8 (m : Mem) (a : Word) (b : Byte) : Mem := fun x => if x = a then b else m x

/-- Read the word at an address. -/
def load32 (m : Mem) (a : Word) : Word :=
  ofBytes (m (a + 3#32)) (m (a + 2#32)) (m (a + 1#32)) (m a)

/-- Write a word, byte after byte. -/
def store32 (m : Mem) (a : Word) (v : Word) : Mem :=
  store8 (store8 (store8 (store8 m a (byteAt v 0)) (a + 1#32) (byteAt v 1))
    (a + 2#32) (byteAt v 2)) (a + 3#32) (byteAt v 3)

/-- A byte that was stored is read back. -/
@[simp] theorem store8_same (m : Mem) (a : Word) (b : Byte) : store8 m a b a = b := by
  simp [store8]

/-- A store leaves all other bytes alone. -/
theorem store8_ne (m : Mem) {a x : Word} (b : Byte) (h : x ≠ a) : store8 m a b x = m x := by
  simp [store8, h]

/-- The bytes a word store leaves behind, by their distance from its address. -/
theorem store32_apply (m : Mem) (a v x : Word) :
    store32 m a v x = if (x - a).toNat < 4 then byteAt v (x - a).toNat else m x := by
  have hcases : (x - a).toNat < 4 ↔ x = a ∨ x = a + 1#32 ∨ x = a + 2#32 ∨ x = a + 3#32 := by
    constructor
    · intro h; bv_omega
    · rintro (h | h | h | h) <;> subst h <;> bv_omega
  by_cases hx : (x - a).toNat < 4
  · rw [if_pos hx]
    rcases hcases.mp hx with h | h | h | h <;> subst h
    · have h1 : x ≠ x + 1#32 := by bv_omega
      have h2 : x ≠ x + 2#32 := by bv_omega
      have h3 : x ≠ x + 3#32 := by bv_omega
      simp [store32, store8, h1, h2, h3]
    · have h0 : (a + 1#32 - a).toNat = 1 := by bv_omega
      have h2 : a + 1#32 ≠ a + 2#32 := by bv_omega
      have h3 : a + 1#32 ≠ a + 3#32 := by bv_omega
      rw [h0]
      simp [store32, store8, h2, h3]
    · have h0 : (a + 2#32 - a).toNat = 2 := by bv_omega
      have h3 : a + 2#32 ≠ a + 3#32 := by bv_omega
      rw [h0]
      simp [store32, store8, h3]
    · have h0 : (a + 3#32 - a).toNat = 3 := by bv_omega
      rw [h0]
      simp [store32, store8]
  · rw [if_neg hx]
    have hne := mt hcases.mpr hx
    simp only [not_or] at hne
    obtain ⟨h0, h1, h2, h3⟩ := hne
    simp only [store32, store8, if_neg h0, if_neg h1, if_neg h2, if_neg h3]

/-- A word store keeps every byte outside its four. -/
theorem store32_frame (m : Mem) {a x : Word} (v : Word) (h : 4 ≤ (x - a).toNat) :
    store32 m a v x = m x := by
  rw [store32_apply, if_neg (by omega)]

/-- Reading back the word just stored. -/
@[simp] theorem load32_store32_same (m : Mem) (a v : Word) : load32 (store32 m a v) a = v := by
  have h0 : (a - a).toNat = 0 := by bv_omega
  have h1 : (a + 1#32 - a).toNat = 1 := by bv_omega
  have h2 : (a + 2#32 - a).toNat = 2 := by bv_omega
  have h3 : (a + 3#32 - a).toNat = 3 := by bv_omega
  simp only [load32, store32_apply, h0, h1, h2, h3, Nat.reduceLT, if_true, ofBytes_byteAt]

/-- A word depends on its four bytes only. -/
theorem load32_congr {m m' : Mem} {a : Word}
    (h : ∀ x, (x - a).toNat < 4 → m' x = m x) : load32 m' a = load32 m a := by
  unfold load32
  rw [h a (by bv_omega), h (a + 1#32) (by bv_omega), h (a + 2#32) (by bv_omega),
    h (a + 3#32) (by bv_omega)]

/-- A store to a disjoint word does not change the word read. -/
theorem load32_store32_disjoint (m : Mem) {a b : Word} (v : Word)
    (hab : 4 ≤ (b - a).toNat) (hba : 4 ≤ (a - b).toNat) :
    load32 (store32 m a v) b = load32 m b := by
  apply load32_congr
  intro x hx
  apply store32_frame
  bv_omega

end Muk
