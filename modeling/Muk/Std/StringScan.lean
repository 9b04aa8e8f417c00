import Muk.Std.StringRuns

/-!
# Reading a string up to its NUL

The byte behind the characters of a string is not the string's own. It is the first byte of the
next block's header, which is never zero, or it is not allocated yet. So a scan for the NUL always
leaves the string's block, and stops at its end only while no block follows.
-/

namespace Muk

open Heap TrackedHeap

variable {σ : Type} {M : PagedMemory σ Fault} {Ok : σ → Prop} {Err : Fault → Prop}
  {h : Heap σ} {g g' : TrackedHeap σ} {s t : σ} {sizes : List ℕ} {strs : List StdString}
  {str : StdString} {addr size src dest : Word} {b : Byte} {text : List Byte} {i n : ℕ}

/-! ## Cells of the heap -/

/-- The cell at a distance from an address. -/
theorem cells_add (s : σ) (addr : Word) (k : ℕ) :
    M.cells s (addr.toNat + k) = (M.load8 s (addr + BitVec.ofNat 32 k)).toOption := by
  rw [PagedMemory.cells, BitVec.ofNat_add, BitVec.ofNat_toNat, BitVec.setWidth_eq]

/-- A cell has a byte exactly if this byte is read at its address. -/
theorem cells_add_eq_some {k : ℕ} :
    M.cells s (addr.toNat + k) = some b ↔ M.load8 s (addr + BitVec.ofNat 32 k) = .ok b := by
  rw [cells_add]
  cases M.load8 s (addr + BitVec.ofNat 32 k) <;> simp [Except.toOption]

namespace Heap

/-- A block ends where the next one starts. -/
theorem payloadAddr_end (hi : i < sizes.length) :
    payloadAddr sizes i + BitVec.ofNat 32 sizes[i] = blockAddr sizes (i + 1) := by
  rw [payloadAddr, blockAddr, blockAddr, blockOffset_succ hi]
  bv_omega

/-- The first byte of a header is odd. -/
theorem byteAt_sizeWord (size : Word) : byteAt (sizeWord size) 0 ≠ 0 := by
  intro hzero
  have hbit : (byteAt (sizeWord size) 0).getLsbD 0 = true := by simp [byteAt, sizeWord]
  rw [hzero] at hbit
  exact absurd hbit (by decide)

/-- The byte behind a block that another one follows. -/
theorem Blocks.byte_followed (hblocks : Blocks M Ok h sizes) (hi : i + 1 < sizes.length) :
    ∃ b ≠ 0, M.load8 h.mem (payloadAddr sizes i + BitVec.ofNat 32 sizes[i]) = .ok b := by
  have hbyte := (hblocks.header (i + 1) hi).size 0 (by omega)
  rw [BitVec.add_zero] at hbyte
  exact ⟨_, byteAt_sizeWord _, by rw [payloadAddr_end (by omega), hbyte]⟩

/-- The byte behind the last block, within a page. -/
theorem Blocks.byte_last (hblocks : Blocks M Ok h sizes) (hi : i < sizes.length)
    (hlast : i + 1 = sizes.length) (hpage : heapBytes sizes % 4096 ≠ 0) :
    M.load8 h.mem (payloadAddr sizes i + BitVec.ofNat 32 sizes[i]) = .ok 0 := by
  have hend := hblocks.toNat_blockAddr (i := i + 1) (by omega)
  have htop := hblocks.region.used_le
  have htop' := hblocks.region.top_le
  have haligned := hblocks.region.top_aligned
  have hused : blockOffset sizes (i + 1) = heapBytes sizes := by rw [hlast, heapBytes]
  rw [payloadAddr_end hi]
  exact hblocks.region.fresh _ (mem_window.mpr (by omega)) (by omega) (by omega)

/-- The payloads of different blocks start at different addresses, as each block has a header of its
own. -/
theorem payloadAddr_inj (hfit : heapBytes sizes ≤ 0x10000000) {j : ℕ} (hi : i < sizes.length)
    (hj : j < sizes.length) (heq : payloadAddr sizes i = payloadAddr sizes j) : i = j := by
  have hiend := blockOffset_add_le hi
  have hjend := blockOffset_add_le hj
  have hiaddr := Heap.toNat_blockAddr (show blockOffset sizes i ≤ 0x10000000 by omega)
  have hjaddr := Heap.toNat_blockAddr (show blockOffset sizes j ≤ 0x10000000 by omega)
  rw [payloadAddr, payloadAddr] at heq
  rcases Nat.lt_trichotomy i j with hlt | heq | hlt
  · have := blockOffset_lt hlt hj.le
    bv_omega
  · exact heq
  · have := blockOffset_lt hlt hi.le
    bv_omega

/-- No payload starts at `NULL`, as the heap starts far above it. -/
theorem payloadAddr_ne_zero (hfit : heapBytes sizes ≤ 0x10000000) (hi : i < sizes.length) :
    payloadAddr sizes i ≠ 0 := by
  have hend := blockOffset_add_le hi
  have haddr := Heap.toNat_blockAddr (show blockOffset sizes i ≤ 0x10000000 by omega)
  rw [payloadAddr]
  bv_omega

end Heap

/-! ## Scanning for the NUL -/

/-- The scan of `data()` stops at index `size()`. -/
def StopsAtSize (M : PagedMemory σ Fault) (s : σ) (str : StdString) : Prop :=
  ∃ text, scanNul M s str.buff = .ok text ∧ text.length = str.length.toNat

/-- No character of the string is NUL. -/
def NulFree (M : PagedMemory σ Fault) (s : σ) (str : StdString) : Prop :=
  ∀ k < str.length.toNat, M.load8 s (str.buff + BitVec.ofNat 32 k) ≠ .ok 0

/-- Byte number `k` from `data()` on lies in the allocation at `data()`. -/
def OwnByte (sizes : List ℕ) (str : StdString) (k : ℕ) : Prop :=
  ∃ i, ∃ hi : i < sizes.length, str.buff = payloadAddr sizes i ∧ k < sizes[i]

/-- The string can be read as a C string: the scan stops at index `size()`, and all bytes that it
reads, the NUL included, are the string's own. -/
structure IsCString (M : PagedMemory σ Fault) (g : TrackedHeap σ) (str : StdString) : Prop where
  stops : StopsAtSize M g.heap.mem str
  own : ∀ text, scanNul M g.heap.mem str.buff = .ok text → ∀ k ≤ text.length, OwnByte g.sizes str k

/-- The byte behind the characters is not the string's own. -/
theorem IsArray.not_ownByte (harray : IsArray sizes str.buff str.length)
    (hfit : heapBytes sizes ≤ 0x10000000) : ¬ OwnByte sizes str str.length.toNat := by
  rintro ⟨j, hj, hbuff, hlt⟩
  rcases harray with ⟨-, hnull⟩ | ⟨-, i, hi, haddr, hsize⟩
  · exact payloadAddr_ne_zero hfit hj (hbuff.symm.trans hnull)
  · obtain rfl := payloadAddr_inj hfit hi hj (haddr.symm.trans hbuff)
    omega

/-- A string that owns its characters cannot be read as a C string. -/
theorem Sound.not_isCString (hg : Sound M Ok g strs) (hstr : str ∈ strs) : ¬ IsCString M g str := by
  rintro ⟨⟨text, hscan, hlength⟩, hown⟩
  have hend := hown text hscan text.length le_rfl
  rw [hlength] at hend
  exact (hg.array str hstr).not_ownByte hg.inv.heapBytes_le hend

/-- The scan goes on past the end of a block that another one follows. -/
theorem Heap.Blocks.not_stopsAtSize (hblocks : Blocks M Ok h sizes) (hi : i + 1 < sizes.length)
    (hbuff : str.buff = payloadAddr sizes i) (hsize : sizes[i] = str.length.toNat) :
    ¬ StopsAtSize M h.mem str := by
  rintro ⟨text, hscan, hlength⟩
  have hnul := (readString_eq_ok.mp hscan).1.nul
  rw [hlength, ← hsize, cells_add_eq_some, hbuff] at hnul
  obtain ⟨b, hb, hload⟩ := hblocks.byte_followed hi
  rw [hload] at hnul
  exact hb (Except.ok.inj hnul)

/-- The scan stops at the end of the last block, if its page goes on behind it. -/
theorem Heap.Inv.stopsAtSize (hinv : Inv M Ok h sizes) (hi : i < sizes.length)
    (hlast : i + 1 = sizes.length) (hpage : heapBytes sizes % 4096 ≠ 0)
    (hbuff : str.buff = payloadAddr sizes i) (hsize : sizes[i] = str.length.toNat)
    (hfree : NulFree M h.mem str) : StopsAtSize M h.mem str := by
  have hcells (k : ℕ) (hk : k < str.length.toNat) :
      ∃ b, b ≠ 0 ∧ M.cells h.mem (str.buff.toNat + k) = some b := by
    obtain ⟨b, hb⟩ := hinv.load ⟨i, hi, k, by omega, rfl⟩
    rw [← hbuff] at hb
    exact ⟨b, fun hzero => hfree k hk (hzero ▸ hb), cells_add_eq_some.mpr hb⟩
  obtain ⟨text, hbytes, hne, hlength⟩ := exists_bytes hcells
  have hend := hinv.byte_last hi hlast hpage
  rw [hsize, ← hbuff, ← cells_add_eq_some, ← hlength] at hend
  refine ⟨text, readString_eq_ok.mpr ⟨Text.of_bytes hbytes hne hend, ?_⟩, hlength⟩
  have := str.length.isLt
  omega

end Muk
