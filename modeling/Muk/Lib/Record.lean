import Muk.Lib.ByteMemory

/-!
# Records in byte memory

A record is a run of bytes from a base address, and its fields are words at fixed
offsets. Stores to several fields are folded into one operation, so that a field is
read back by looking at the offsets alone.
-/

namespace Muk

variable {m : Mem} {base x v : Word} {offset n : ℕ} {fields : List (ℕ × Word)}

/-- Store words at offsets from a base address, one after the other. -/
def storeFields (m : Mem) (base : Word) (fields : List (ℕ × Word)) : Mem :=
  fields.foldl (fun m f => store32 m (base + BitVec.ofNat 32 f.1) f.2) m

/-- The first field is stored before the others. -/
theorem storeFields_cons (m : Mem) (base : Word) (f : ℕ × Word) (fields : List (ℕ × Word)) :
    storeFields m base (f :: fields) =
      storeFields (store32 m (base + BitVec.ofNat 32 f.1) f.2) base fields := rfl

/-- The fields of two lists are stored one after the other. -/
theorem storeFields_append (m : Mem) (base : Word) (fields fields' : List (ℕ × Word)) :
    storeFields m base (fields ++ fields') =
      storeFields (storeFields m base fields) base fields' := by
  simp only [storeFields, List.foldl_append]

/-- The word below a field that starts four bytes further on is at the offset itself. -/
theorem offset_sub_four (base : Word) (offset : ℕ) :
    base + BitVec.ofNat 32 (offset + 4) - 4#32 = base + BitVec.ofNat 32 offset := by
  rw [BitVec.ofNat_add, ← BitVec.add_assoc]
  exact BitVec.add_sub_cancel _ _

/-- An offset from a field of a record is the sum of both offsets from the record. -/
theorem offset_add (base : Word) (offset k : ℕ) :
    base + BitVec.ofNat 32 offset + BitVec.ofNat 32 k = base + BitVec.ofNat 32 (offset + k) := by
  rw [BitVec.add_assoc, BitVec.ofNat_add]

/-- An offset at which a field may lie: a multiple of four below 2 GiB. -/
def FieldOffset (offset : ℕ) : Prop := offset % 4 = 0 ∧ offset < 2 ^ 31

instance (offset : ℕ) : Decidable (FieldOffset offset) := inferInstanceAs (Decidable (_ ∧ _))

/-- The value of a field after the given stores. -/
def readField (fields : List (ℕ × Word)) (offset : ℕ) (old : Word) : Word :=
  fields.foldl (fun v f => if f.1 = offset then f.2 else v) old

/-- Storing one field leaves the others alone. -/
theorem load32_store32_field {offset' : ℕ} (h : FieldOffset offset) (h' : FieldOffset offset') :
    load32 (store32 m (base + BitVec.ofNat 32 offset') v) (base + BitVec.ofNat 32 offset) =
      if offset' = offset then v else load32 m (base + BitVec.ofNat 32 offset) := by
  by_cases heq : offset' = offset
  · rw [if_pos heq, heq, load32_store32_same]
  · obtain ⟨halign, hlt⟩ := h
    obtain ⟨halign', hlt'⟩ := h'
    rw [if_neg heq]
    apply load32_store32_disjoint <;> bv_omega

/-- A field is what the last store to it put there. -/
theorem load32_storeFields (h : FieldOffset offset) (hfields : ∀ f ∈ fields, FieldOffset f.1) :
    load32 (storeFields m base fields) (base + BitVec.ofNat 32 offset) =
      readField fields offset (load32 m (base + BitVec.ofNat 32 offset)) := by
  induction fields generalizing m with
  | nil => rfl
  | cons f fields ih =>
    rw [storeFields_cons, ih fun g hg => hfields g (List.mem_cons_of_mem _ hg),
      load32_store32_field h (hfields f List.mem_cons_self)]
    rfl

/-- Stores to the fields of a record of `n` bytes change no other byte. -/
theorem storeFields_frame (h : ∀ f ∈ fields, f.1 + 4 ≤ n) (hx : n ≤ (x - base).toNat) :
    storeFields m base fields x = m x := by
  induction fields generalizing m with
  | nil => rfl
  | cons f fields ih =>
    rw [storeFields_cons, ih fun g hg => h g (List.mem_cons_of_mem _ hg)]
    have hf := h f List.mem_cons_self
    apply store32_frame
    bv_omega

/-- Copy `n` bytes, from the first one upwards. -/
def memcpy (m : Mem) (dst src : Word) : ℕ → Mem
  | 0 => m
  | n + 1 =>
    let m := memcpy m dst src n
    store8 m (dst + BitVec.ofNat 32 n) (m (src + BitVec.ofNat 32 n))

/-- Copying changes the bytes copied to, and no other. -/
theorem memcpy_frame {dst src : Word} (hx : n ≤ (x - dst).toNat) : memcpy m dst src n x = m x := by
  induction n with
  | zero => rfl
  | succ n ih =>
    rw [memcpy, store8_ne _ _ (by bv_omega), ih (by omega)]

/-- Store the bytes of a list upwards from an address. -/
def storeList (m : Mem) (dst : Word) : List Byte → Mem
  | [] => m
  | b :: bytes => storeList (store8 m dst b) (dst + 1#32) bytes

/-- Storing a list changes as many bytes as it has, and no other. -/
theorem storeList_frame {dst : Word} {bytes : List Byte} (hlen : bytes.length ≤ 2 ^ 32)
    (hx : bytes.length ≤ (x - dst).toNat) : storeList m dst bytes x = m x := by
  induction bytes generalizing m dst with
  | nil => rfl
  | cons b bytes ih =>
    rw [List.length_cons] at hx hlen
    rw [storeList, ih (by omega) (by bv_omega), store8_ne _ _ (by bv_omega)]

end Muk
