import Muk.Lib.ByteMemory
import Muk.Lib.LeastFirst
import Muk.Lib.WordBits

/-!
# The physical page allocator

`BitmapAllocator` keeps one bit per physical page, set when the page is free.
The constructor reads the multiboot memory map, frees every page of every
available entry and takes back the pages of the kernel; `AllocatePage` looks for
the first set bit.
-/

namespace Muk

/-- Ways in which a run of kernel code leaves the behaviour its source describes. -/
inductive Fault
  /-- An access to a virtual address that no page table entry maps. -/
  | pageFault
  /-- An access outside the array it names. -/
  | outOfBounds
  /-- `AllocatePage` returned `NULL` where the run assumes it does not. -/
  | outOfPages
  /-- A loop that never ends. -/
  | diverges
  deriving DecidableEq, Repr

/-- `memory_map_t`: one 24-byte entry of the multiboot memory map. -/
structure MemoryMap where
  size : Word
  baseAddrLow : Word
  baseAddrHigh : Word
  lengthLow : Word
  lengthHigh : Word
  type : Word
  deriving DecidableEq, Repr

/-- The 64-bit base address of an entry. -/
def MemoryMap.base (e : MemoryMap) : ℕ := 2 ^ 32 * e.baseAddrHigh.toNat + e.baseAddrLow.toNat

/-- The 64-bit length of an entry. -/
def MemoryMap.length (e : MemoryMap) : ℕ := 2 ^ 32 * e.lengthHigh.toNat + e.lengthLow.toNat

/-- `MULTIBOOT_MEMORY_AVAILABLE` -/
def multibootMemoryAvailable : Word := 1

/-- The part of `multiboot_info_t` the allocator reads: the byte length of the
memory map, and the records found one after the other at its address. -/
structure MultibootInfo where
  mmapLength : Word
  mmap : ℕ → MemoryMap

/-- `mmap_entries = mmap_length / sizeof(memory_map_t)` -/
def MultibootInfo.mmapEntries (mboot : MultibootInfo) : ℕ := mboot.mmapLength.toNat / 24

/-- The fields of `BitmapAllocator<BitmapSize>`. -/
structure BitmapAllocator (bitmapSize : ℕ) where
  freePages : Word
  bitmap : Vector Word bitmapSize

namespace BitmapAllocator

variable {bitmapSize : ℕ}

/-- `1 << (page_index & 0x1F)` -/
def pageMask (pageIndex : Word) : Word := 1#32 <<< (pageIndex &&& 0x1F#32)

/-- Replace one word of the bitmap; an index past its end is outside the array. -/
def setWord (a : BitmapAllocator bitmapSize) (chunk : ℕ) (f : Word → Word) :
    Except Fault (BitmapAllocator bitmapSize) :=
  if h : chunk < bitmapSize then .ok { a with bitmap := a.bitmap.set chunk (f a.bitmap[chunk]) }
  else .error .outOfBounds

/-- `PageFree`: sets the correct bit in the array to 1. -/
def pageFree (a : BitmapAllocator bitmapSize) (pageIndex : Word) :
    Except Fault (BitmapAllocator bitmapSize) := do
  let a ← a.setWord (pageIndex >>> 5).toNat (· ||| pageMask pageIndex)
  .ok { a with freePages := a.freePages + 1 }

/-- `PageTaken`: sets the correct bit in the array to 0. -/
def pageTaken (a : BitmapAllocator bitmapSize) (pageIndex : Word) :
    Except Fault (BitmapAllocator bitmapSize) := do
  let a ← a.setWord (pageIndex >>> 5).toNat (· &&& ~~~pageMask pageIndex)
  .ok { a with freePages := a.freePages - 1 }

/-- The word of a chunk, zero past the end of the bitmap. -/
def word (a : BitmapAllocator bitmapSize) (chunk : ℕ) : Word := a.bitmap[chunk]?.getD 0

/-- The inner loop of `AllocatePage`: the first set bit of a word. -/
def firstBit (w : Word) : Option ℕ :=
  searchLoop (fun bit => if w &&& (1#32 <<< bit) ≠ 0 then some bit else none) 0 32

/-- The loops of `AllocatePage`: the number of the first free page. -/
def firstPage (a : BitmapAllocator bitmapSize) : Option ℕ :=
  searchLoop (fun chunk =>
    if a.word chunk ≠ 0 then (firstBit (a.word chunk)).map (chunk * 32 + ·) else none) 0 bitmapSize

/-- `AllocatePage`: the address of the first free page, which is marked taken, or
`NULL` when no free memory was found. -/
def allocatePage (a : BitmapAllocator bitmapSize) :
    Except Fault (Word × BitmapAllocator bitmapSize) :=
  match a.firstPage with
  | some pgNum => do
    let a ← a.pageTaken (BitVec.ofNat 32 pgNum)
    .ok (BitVec.ofNat 32 pgNum <<< 12, a)
  | none => .ok (0, a)

/-- The pages of one memory map entry, marked free if the entry is available. -/
def freeEntry (e : MemoryMap) (a : BitmapAllocator bitmapSize) :
    Except Fault (BitmapAllocator bitmapSize) :=
  if e.type = multibootMemoryAvailable then
    let firstPg := (e.baseAddrLow &&& 0xFFFFF000#32) >>> 12
    let endPg := ((e.baseAddrLow + e.lengthLow) &&& 0xFFFFF000#32) >>> 12
    forLoop (fun pgIndex a => a.pageFree (BitVec.ofNat 32 pgIndex)) firstPg.toNat
      (endPg.toNat - firstPg.toNat) a
  else .ok a

/-- The constructor of `BitmapAllocator`, run on the given storage: it sets
`free_pages` but leaves the bitmap as it finds it. -/
def construct (storage : Vector Word bitmapSize) (mboot : MultibootInfo) (kernelEnd : Word) :
    Except Fault (BitmapAllocator bitmapSize) := do
  let a ← forLoop (fun index a => freeEntry (mboot.mmap index) a) 0 mboot.mmapEntries
    { freePages := 0, bitmap := storage }
  let endKernelPg := (kernelEnd &&& 0xFFFFF000#32) >>> 12
  forLoop (fun pgIndex a => a.pageTaken (BitVec.ofNat 32 pgIndex)) 0 (endKernelPg + 1).toNat a

/-! ## The set of free pages -/

/-- The pages whose bit is set. -/
def free (a : BitmapAllocator bitmapSize) : Set ℕ :=
  {p | (a.word (p / 32)).getLsbD (p % 32) = true}

/-- A page is free if its bit is set. -/
theorem mem_free {a : BitmapAllocator bitmapSize} {p : ℕ} :
    p ∈ a.free ↔ (a.word (p / 32)).getLsbD (p % 32) = true := Iff.rfl

/-- Only pages that have a bit in the bitmap can be free. -/
theorem lt_of_mem_free {a : BitmapAllocator bitmapSize} {p : ℕ} (hp : p ∈ a.free) :
    p < 32 * bitmapSize := by
  by_contra h
  have hchunk : ¬ p / 32 < bitmapSize := by omega
  simp [mem_free, word, hchunk] at hp

/-- There are finitely many free pages. -/
theorem finite_free (a : BitmapAllocator bitmapSize) : a.free.Finite :=
  (Set.finite_Iio (32 * bitmapSize)).subset fun _ hp => lt_of_mem_free hp

/-- The word and the bit of a page. -/
theorem pageIndex_parts {p : ℕ} (hp : p < 2 ^ 32) :
    (BitVec.ofNat 32 p >>> 5).toNat = p / 32 ∧
      pageMask (BitVec.ofNat 32 p) = BitVec.twoPow 32 (p % 32) := by
  have hand : p &&& 31 = p % 32 := Nat.and_two_pow_sub_one_eq_mod p 5
  have hmod : p % 4294967296 = p := Nat.mod_eq_of_lt (by omega)
  constructor
  · simp [Nat.shiftRight_eq_div_pow, hmod]
  · simp [pageMask, BitVec.shiftLeft_eq', BitVec.twoPow_eq, hmod, hand]

/-- Replacing a word inside the bitmap changes the free pages of that word only. -/
theorem setWord_spec (a : BitmapAllocator bitmapSize) {chunk : ℕ} (f : Word → Word)
    (h : chunk < bitmapSize) :
    ∃ a', a.setWord chunk f = .ok a' ∧ a'.freePages = a.freePages ∧
      ∀ i, a'.word i = if i = chunk then f (a.word i) else a.word i := by
  refine ⟨_, dif_pos h, rfl, fun i => ?_⟩
  by_cases hi : i = chunk
  · subst i
    simp [word, h]
  · simp [word, hi, Ne.symm hi]

/-- A word outside the bitmap cannot be set. -/
theorem setWord_error (a : BitmapAllocator bitmapSize) {chunk : ℕ} (f : Word → Word)
    (h : bitmapSize ≤ chunk) : a.setWord chunk f = .error .outOfBounds := dif_neg (by omega)

/-- Freeing a page adds exactly that page to the free ones. -/
theorem pageFree_spec (a : BitmapAllocator bitmapSize) {p : ℕ} (hp : p < 32 * bitmapSize)
    (hword : p < 2 ^ 32) :
    ∃ a', a.pageFree (BitVec.ofNat 32 p) = .ok a' ∧ a'.free = insert p a.free := by
  obtain ⟨hchunk, hmask⟩ := pageIndex_parts hword
  obtain ⟨t, ht, -, hw⟩ := a.setWord_spec (· ||| BitVec.twoPow 32 (p % 32))
    (show p / 32 < bitmapSize by omega)
  refine ⟨{ t with freePages := t.freePages + 1 }, ?_, ?_⟩
  · simp only [pageFree, hchunk, hmask, ht, bind, Except.bind]
  · have hbit (x : ℕ) : wordBit t.word x = if x = p then true else wordBit a.word x :=
      wordBit_update (g := fun _ => true) (by decide) hw fun v i hi => getLsbD_or_twoPow hi
    ext x
    change wordBit t.word x = true ↔ x = p ∨ wordBit a.word x = true
    rw [hbit]
    by_cases hx : x = p <;> simp [hx]

/-- A page past the end of the bitmap has no word. -/
theorem pageFree_error (a : BitmapAllocator bitmapSize) {p : ℕ} (hp : 32 * bitmapSize ≤ p)
    (hword : p < 2 ^ 32) : a.pageFree (BitVec.ofNat 32 p) = .error .outOfBounds := by
  rw [pageFree, (pageIndex_parts hword).1, a.setWord_error _ (by omega)]
  rfl

/-- Taking a page removes exactly that page from the free ones. -/
theorem pageTaken_spec (a : BitmapAllocator bitmapSize) {p : ℕ} (hp : p < 32 * bitmapSize)
    (hword : p < 2 ^ 32) :
    ∃ a', a.pageTaken (BitVec.ofNat 32 p) = .ok a' ∧ a'.free = a.free \ {p} := by
  obtain ⟨hchunk, hmask⟩ := pageIndex_parts hword
  obtain ⟨t, ht, -, hw⟩ := a.setWord_spec (· &&& ~~~BitVec.twoPow 32 (p % 32))
    (show p / 32 < bitmapSize by omega)
  refine ⟨{ t with freePages := t.freePages - 1 }, ?_, ?_⟩
  · simp only [pageTaken, hchunk, hmask, ht, bind, Except.bind]
  · have hbit (x : ℕ) : wordBit t.word x = if x = p then false else wordBit a.word x :=
      wordBit_update (g := fun _ => false) (by decide) hw fun v i hi => getLsbD_and_not_twoPow hi
    ext x
    change wordBit t.word x = true ↔ wordBit a.word x = true ∧ x ≠ p
    rw [hbit]
    by_cases hx : x = p <;> simp [hx]

/-- A page outside the bitmap cannot be taken. -/
theorem pageTaken_error (a : BitmapAllocator bitmapSize) {p : ℕ} (hp : 32 * bitmapSize ≤ p)
    (hword : p < 2 ^ 32) : a.pageTaken (BitVec.ofNat 32 p) = .error .outOfBounds := by
  rw [pageTaken, (pageIndex_parts hword).1, a.setWord_error _ (by omega)]
  rfl

/-! ## The first free page -/

/-- The test `(word & (1 << bit)) != 0` reads one bit. -/
theorem and_bit_ne_zero {w : Word} {bit : ℕ} (h : bit < 32) :
    w &&& (1#32 <<< bit) ≠ 0 ↔ w.getLsbD bit = true := by
  rw [← BitVec.twoPow_eq]
  exact and_twoPow_ne_zero h

/-- The inner loop finds the first set bit. -/
theorem firstBit_eq_some {w : Word} {bit : ℕ} (h : firstBit w = some bit) :
    bit < 32 ∧ w.getLsbD bit = true ∧ ∀ j < bit, w.getLsbD j = false := by
  obtain ⟨i, hi, hfound, hbefore⟩ := searchLoop_eq_some h
  simp only [Nat.zero_add] at hfound hbefore
  obtain ⟨hset, hbit⟩ := Option.ite_none_right_eq_some.mp hfound
  cases hbit
  refine ⟨hi, (and_bit_ne_zero hi).mp hset, fun j hj => ?_⟩
  rw [← Bool.not_eq_true, ← and_bit_ne_zero (show j < 32 by omega)]
  intro hj'
  have hnone := hbefore j hj
  rw [if_pos hj'] at hnone
  cases hnone

/-- A word that is not zero has a first set bit. -/
theorem firstBit_ne_none {w : Word} (h : w ≠ 0) : firstBit w ≠ none := by
  intro hnone
  apply h
  apply BitVec.eq_of_getLsbD_eq
  intro i hi
  have hclear := searchLoop_eq_none.mp hnone i hi
  rw [Nat.zero_add] at hclear
  have hbit : ¬ w.getLsbD i = true := by
    rw [← and_bit_ne_zero hi]
    intro hset
    rw [if_pos hset] at hclear
    cases hclear
  simpa using hbit

/-- A search that fails has passed only words without a free page. -/
theorem firstPage_eq_none {a : BitmapAllocator bitmapSize} (h : a.firstPage = none) :
    a.free = ∅ := by
  ext p
  simp only [Set.mem_empty_iff_false, iff_false]
  intro hp
  have hlt := lt_of_mem_free hp
  have hchunk := searchLoop_eq_none.mp h (p / 32) (by omega)
  simp only [Nat.zero_add] at hchunk
  by_cases hw : a.word (p / 32) = 0
  · rw [mem_free, hw] at hp
    simp at hp
  · rw [if_pos hw, Option.map_eq_none_iff] at hchunk
    exact firstBit_ne_none hw hchunk

/-- The page a search finds is the least free one. -/
theorem firstPage_eq_some {a : BitmapAllocator bitmapSize} {p : ℕ} (h : a.firstPage = some p) :
    IsLeast a.free p := by
  obtain ⟨chunk, hchunk, hfound, hbefore⟩ := searchLoop_eq_some h
  simp only [Nat.zero_add] at hfound hbefore
  have hw : a.word chunk ≠ 0 := by
    intro hw
    simp [hw] at hfound
  rw [if_pos hw, Option.map_eq_some_iff] at hfound
  obtain ⟨bit, hbit, rfl⟩ := hfound
  obtain ⟨hlt, hset, hclear⟩ := firstBit_eq_some hbit
  constructor
  · have hdiv : (chunk * 32 + bit) / 32 = chunk := by omega
    have hmod : (chunk * 32 + bit) % 32 = bit := by omega
    rwa [mem_free, hdiv, hmod]
  · intro x hx
    rw [mem_free] at hx
    by_contra hsmall
    rcases Nat.lt_or_ge (x / 32) chunk with hc | hc
    · -- an earlier word has a set bit, so the outer loop would have stopped there
      have hnone := hbefore (x / 32) hc
      have hw' : a.word (x / 32) ≠ 0 := by
        intro hzero
        simp [hzero] at hx
      rw [if_pos hw', Option.map_eq_none_iff] at hnone
      exact firstBit_ne_none hw' hnone
    · have heq : x / 32 = chunk := by omega
      have := hclear (x % 32) (by omega)
      rw [← heq] at this
      simp [this] at hx

/-- `AllocatePage` hands out the least free page. -/
theorem allocatePage_isLeast {a : BitmapAllocator bitmapSize} {p : ℕ}
    (hsize : bitmapSize ≤ 2 ^ 27) (h : IsLeast a.free p) :
    ∃ a', a.allocatePage = .ok (BitVec.ofNat 32 p <<< 12, a') ∧ a'.free = a.free \ {p} := by
  have hlt := lt_of_mem_free h.1
  cases hfirst : a.firstPage with
  | none =>
    have := h.1
    simp [firstPage_eq_none hfirst] at this
  | some q =>
    have hq : q = p := (firstPage_eq_some hfirst).unique h
    subst q
    obtain ⟨a', htaken, hfree⟩ := a.pageTaken_spec hlt (by omega)
    refine ⟨a', ?_, hfree⟩
    simp only [allocatePage, hfirst, htaken, bind, Except.bind]

/-- With no page free, `AllocatePage` returns `NULL` and changes nothing. -/
theorem allocatePage_empty {a : BitmapAllocator bitmapSize} (h : a.free = ∅) :
    a.allocatePage = .ok (0, a) := by
  cases hfirst : a.firstPage with
  | none => simp only [allocatePage, hfirst]
  | some p =>
    have := (firstPage_eq_some hfirst).1
    simp [h] at this

/-- A page number of the bitmap, shifted into an address. -/
theorem ofNat_shiftLeft_page (p : ℕ) :
    BitVec.ofNat 32 p <<< 12 = BitVec.ofNat 32 (4096 * p) := by
  apply BitVec.eq_of_toNat_eq
  simp only [BitVec.toNat_shiftLeft, BitVec.toNat_ofNat, Nat.shiftLeft_eq]
  omega

/-- Everything one call of `AllocatePage` can do. -/
theorem allocatePage_cases (a : BitmapAllocator bitmapSize) (hsize : bitmapSize ≤ 2 ^ 27) :
    (a.free = ∅ ∧ a.allocatePage = .ok (0, a)) ∨
      ∃ p a', IsLeast a.free p ∧ a.allocatePage = .ok (BitVec.ofNat 32 p <<< 12, a') ∧
        a'.free = a.free \ {p} := by
  rcases Set.eq_empty_or_nonempty a.free with hempty | hne
  · exact Or.inl ⟨hempty, allocatePage_empty hempty⟩
  · right
    have hleast : IsLeast a.free (sInf a.free) := ⟨Nat.sInf_mem hne, fun x hx => Nat.sInf_le hx⟩
    obtain ⟨a', hcall, hfree⟩ := allocatePage_isLeast hsize hleast
    exact ⟨_, a', hleast, hcall, hfree⟩

end BitmapAllocator

end Muk
