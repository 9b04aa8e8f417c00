import Muk.Lib.PagedMemory
import Muk.Memory.PhysManager

/-!
# The kernel heap

`vmalloc` never gives memory back: each call appends one block after the last
one, maps the pages the block needs, and links its header to the previous one.
The model runs over any paged memory, so that the same code is used over an
idealised memory and over the machine's own page tables.
-/

namespace Muk

/-- `Memory::kHeapStart` -/
def kHeapStart : Word := 0xE0000000

/-- `sizeof(BlockHeader)` on i686 -/
def blockHeaderSize : ℕ := 12

/-- The heap's static variables, the interrupt flag, and memory. -/
structure Heap (σ : Type) where
  kheapTop : Word
  kheapStart : Word
  interrupts : Bool
  mem : σ

namespace Heap

variable {σ : Type} (M : PagedMemory σ Fault)

/-- The static variables before the first call. -/
def initial (s : σ) : Heap σ :=
  { kheapTop := kHeapStart, kheapStart := 0, interrupts := true, mem := s }

/-- `map_heap_pages`: one page after the other, as long as `end_addr > kheap_top`.
A run takes each of the `2 ^ 20` pages at most once, or never ends. -/
def mapHeapPages (h : Heap σ) (endAddr : Word) : ℕ → Except Fault (Heap σ)
  | 0 => .error .diverges
  | fuel + 1 =>
    if h.kheapTop < endAddr then do
      let s ← M.mapPage h.mem h.kheapTop
      let s ← M.memset s h.kheapTop 0 4096
      mapHeapPages { h with mem := s, kheapTop := h.kheapTop + 4096#32 } endAddr fuel
    else .ok h

/-- `block->size`, the upper 31 bits of the first word of a header. -/
def blockSize (s : σ) (block : Word) : Except Fault Word := do
  let w ← M.load32 s block
  .ok (w >>> 1)

/-- The loop condition and advance of the traversal: the next block, if the loop goes on. -/
def nextBlock (s : σ) (block : Word) : Except Fault (Option Word) := do
  let next ← M.load32 s (block + 4#32)
  .ok (if next ≠ 0 ∧ block ≠ next then some next else none)

/-- The blocks the traversal visits, from the given one to the one it stops at. A
traversal longer than the address space never ends. -/
def traverse (s : σ) (block : Word) : ℕ → Except Fault (List Word)
  | 0 => .error .diverges
  | fuel + 1 => do
    match ← nextBlock M s block with
    | none => .ok [block]
    | some next => do
      let rest ← traverse s next fuel
      .ok (block :: rest)

/-- The block `found_block` the traversal stops at. -/
def foundBlock (s : σ) (block : Word) : Except Fault Word := do
  let visited ← traverse M s block (2 ^ 32)
  .ok (visited.getLastD block)

/-- The traversal depends on the words loaded only. -/
theorem foundBlock_congr {M M' : PagedMemory σ Fault} (h : M.load32 = M'.load32) (s : σ)
    (block : Word) : foundBlock M s block = foundBlock M' s block := by
  have htraverse (fuel : ℕ) (block : Word) :
      traverse M s block fuel = traverse M' s block fuel := by
    induction fuel generalizing block with
    | zero => rfl
    | succ fuel ih => simp only [traverse, nextBlock, h, ih]
  rw [foundBlock, foundBlock, htraverse]

/-- The word that holds the bit-fields `in_use` and `size` of a block in use. -/
def sizeWord (size : Word) : Word := (size <<< 1) ||| 1#32

/-- The constructor `BlockHeader(size, prev)`, placed at an address. -/
def newBlockHeader (s : σ) (block size prev : Word) : Except Fault σ := do
  let s ← M.store32 s block (sizeWord size)
  let s ← M.store32 s (block + 4#32) 0
  M.store32 s (block + 8#32) prev

/-- The branch of `vmalloc` that initialises the heap. -/
def initialise (h : Heap σ) : Except Fault (Heap σ) :=
  if h.kheapStart = 0 then do
    let s ← M.mapPage h.mem kHeapStart
    let s ← M.memset s kHeapStart 0 4096
    .ok { h with mem := s, kheapStart := kHeapStart, kheapTop := kHeapStart }
  else .ok h

/-- The rest of `vmalloc` after the traversal, for a size that includes the header. -/
def appendBlock (h : Heap σ) (found size : Word) : Except Fault (Word × Heap σ) := do
  let foundSize ← blockSize M h.mem found
  let endOfBlock := found + foundSize
  let h ← mapHeapPages M h (endOfBlock + size) (2 ^ 20 + 1)
  let s ← newBlockHeader M h.mem endOfBlock size found
  let s ← if found ≠ 0 then M.store32 s (found + 4#32) endOfBlock else .ok s
  .ok (endOfBlock + 12#32, { h with mem := s, interrupts := true })

/-- `vmalloc` -/
def vmalloc (h : Heap σ) (size : Word) : Except Fault (Word × Heap σ) := do
  let h := { h with interrupts := false }
  if size = 0 then .ok (0, h)
  else do
    let h ← initialise M h
    let found ← foundBlock M h.mem h.kheapStart
    appendBlock M h found (size + 12#32)

/-! ## Layout -/

/-- The addresses from `kHeapStart` up to the end of the heap at `0xF0000000`. -/
def window : Set Word := {a | 0xE0000000 ≤ a.toNat ∧ a.toNat < 0xF0000000}

/-- The heap is from `0xE0000000` up to `0xF0000000`. -/
theorem mem_window {a : Word} : a ∈ window ↔ 0xE0000000 ≤ a.toNat ∧ a.toNat < 0xF0000000 := Iff.rfl

/-- The distance from `kHeapStart` to block number `i`, for blocks with the given
payload sizes. -/
def blockOffset (sizes : List ℕ) (i : ℕ) : ℕ := ((sizes.take i).map (· + blockHeaderSize)).sum

/-- The number of bytes all blocks take. -/
def heapBytes (sizes : List ℕ) : ℕ := blockOffset sizes sizes.length

/-- The address of block number `i`. -/
def blockAddr (sizes : List ℕ) (i : ℕ) : Word := kHeapStart + BitVec.ofNat 32 (blockOffset sizes i)

/-- The address of the payload of block number `i`. -/
def payloadAddr (sizes : List ℕ) (i : ℕ) : Word := blockAddr sizes i + 12#32

/-- The first block is at the start of the heap. -/
@[simp] theorem blockOffset_zero (sizes : List ℕ) : blockOffset sizes 0 = 0 := by
  simp [blockOffset]

/-- A block begins behind the payload and the header of the one before. -/
theorem blockOffset_succ {sizes : List ℕ} {i : ℕ} (hi : i < sizes.length) :
    blockOffset sizes (i + 1) = blockOffset sizes i + sizes[i] + 12 := by
  simp only [blockOffset, List.take_succ_eq_append_getElem hi, List.map_append, List.map_cons,
    List.map_nil, List.sum_append, List.sum_cons, List.sum_nil, blockHeaderSize]
  omega

/-- Blocks do not overlap: a later block starts after the end of an earlier one. -/
theorem blockOffset_lt {sizes : List ℕ} {i j : ℕ} (hij : i < j) (hj : j ≤ sizes.length) :
    blockOffset sizes i + sizes[i] + 12 ≤ blockOffset sizes j := by
  induction j with
  | zero => omega
  | succ j ih =>
    rw [blockOffset_succ (by omega)]
    by_cases h : i = j
    · subst i
      omega
    · have := ih (by omega) (by omega)
      omega

/-- Every block is inside the bytes of the heap. -/
theorem blockOffset_le {sizes : List ℕ} {i : ℕ} (hi : i ≤ sizes.length) :
    blockOffset sizes i ≤ heapBytes sizes := by
  by_cases h : i = sizes.length
  · rw [h]
    rfl
  · have := blockOffset_lt (show i < sizes.length by omega) le_rfl
    rw [heapBytes]
    omega

/-- A block lies below the end of the heap's blocks. -/
theorem blockOffset_add_le {sizes : List ℕ} {i : ℕ} (hi : i < sizes.length) :
    blockOffset sizes i + sizes[i] + 12 ≤ heapBytes sizes := blockOffset_lt hi le_rfl

/-- Further blocks do not move those that exist. -/
theorem blockOffset_append {sizes more : List ℕ} {i : ℕ} (hi : i ≤ sizes.length) :
    blockOffset (sizes ++ more) i = blockOffset sizes i := by
  rw [blockOffset, List.take_append_of_le_length hi, blockOffset]

/-- A further block adds its payload and its header to the heap. -/
theorem heapBytes_append (sizes : List ℕ) (size : ℕ) :
    heapBytes (sizes ++ [size]) = heapBytes sizes + size + 12 := by
  rw [heapBytes, List.length_append, List.length_singleton,
    blockOffset_succ (by simp), blockOffset_append le_rfl]
  simp [heapBytes]

/-- The address of a block is its offset from the start of the heap. -/
theorem toNat_blockAddr {sizes : List ℕ} {i : ℕ} (h : blockOffset sizes i ≤ 0x10000000) :
    (blockAddr sizes i).toNat = 0xE0000000 + blockOffset sizes i := by
  have hstart : kHeapStart.toNat = 0xE0000000 := rfl
  rw [blockAddr, BitVec.toNat_add, BitVec.toNat_ofNat, hstart]
  omega

/-- Further blocks leave the addresses of those that exist as they are. -/
theorem blockAddr_append {sizes more : List ℕ} {i : ℕ} (hi : i ≤ sizes.length) :
    blockAddr (sizes ++ more) i = blockAddr sizes i := by
  rw [blockAddr, blockOffset_append hi, blockAddr]

/-- The first block has the address of the start. -/
@[simp] theorem blockAddr_zero (sizes : List ℕ) : blockAddr sizes 0 = kHeapStart := by
  simp [blockAddr]

end Heap

end Muk
