import Muk.Memory.HeapBlocks

/-!
# The heap invariant

After any number of calls the heap is the list of blocks in the order in which
they were allocated, one directly after the other, doubly linked, and followed by
zero bytes up to `kheap_top`. The invariant says so for the list of payload sizes;
`vmalloc` appends to that list, and writes into payloads leave it alone.
-/

namespace Muk

namespace Heap

variable {σ : Type} {M : PagedMemory σ Fault} {Ok : σ → Prop} {Err : Fault → Prop}
  {h : Heap σ} {s : σ} {sizes : List ℕ} {size : ℕ}

/-! ## The invariant -/

/-- What the field `next` of block `i` holds: the block after it, nothing in the last
block, and in a heap of one block that block itself. -/
def nextAddr (sizes : List ℕ) (i : ℕ) : Word :=
  if i + 1 < sizes.length then blockAddr sizes (i + 1)
  else if i = 0 then blockAddr sizes 0 else 0

/-- The blocks of the heap lie one after the other in its region, and are linked. -/
structure Blocks (M : PagedMemory σ Fault) (Ok : σ → Prop) (h : Heap σ) (sizes : List ℕ) :
    Prop where
  region : Region M Ok h (heapBytes sizes)
  header : ∀ i (hi : i < sizes.length), Header M h.mem (blockAddr sizes i)
    (BitVec.ofNat 32 (sizes[i] + 12)) (nextAddr sizes i) (blockAddr sizes (i - 1))

/-- The heap between two calls. -/
structure Inv (M : PagedMemory σ Fault) (Ok : σ → Prop) (h : Heap σ) (sizes : List ℕ) : Prop
    extends Blocks M Ok h sizes where
  start : h.kheapStart = if sizes = [] then 0 else kHeapStart

/-- A byte of some payload. -/
def InPayload (sizes : List ℕ) (x : Word) : Prop :=
  ∃ i, ∃ hi : i < sizes.length, ∃ k < sizes[i], x = payloadAddr sizes i + BitVec.ofNat 32 k

/-- The blocks fit between the start and the end of the heap. -/
theorem Blocks.heapBytes_le (hblocks : Blocks M Ok h sizes) : heapBytes sizes ≤ 0x10000000 := by
  have := hblocks.region.used_le
  have := hblocks.region.top_le
  omega

/-- The address of a block does not wrap. -/
theorem Blocks.toNat_blockAddr (hblocks : Blocks M Ok h sizes) {i : ℕ} (hi : i ≤ sizes.length) :
    (blockAddr sizes i).toNat = 0xE0000000 + blockOffset sizes i := by
  have := hblocks.heapBytes_le
  have := blockOffset_le hi
  exact Heap.toNat_blockAddr (by omega)

/-- Each block has at least its header. -/
theorem length_le_heapBytes (sizes : List ℕ) : 12 * sizes.length ≤ heapBytes sizes := by
  induction sizes using List.reverseRecOn with
  | nil => simp
  | append_singleton sizes size ih =>
    rw [heapBytes_append, List.length_append, List.length_singleton]
    omega

/-- Before the first call nothing is allocated. -/
theorem initial_inv (hok : Ok s) : Inv M Ok (initial s) [] := by
  have htop : (initial s).kheapTop.toNat = 0xE0000000 := rfl
  refine ⟨⟨⟨hok, by rw [htop], ?_, by rw [htop]; omega, fun x hx hlow => ?_,
    fun x hx _ hlow => ?_⟩, fun i hi => by simp at hi⟩, rfl⟩
  · rw [htop]
    rfl
  · rw [htop] at hlow
    rw [mem_window] at hx
    omega
  · rw [htop] at hlow
    rw [mem_window] at hx
    omega

/-! ## The traversal -/

/-- Where the traversal goes from block `i`. -/
theorem Blocks.nextBlock (hblocks : Blocks M Ok h sizes) {i : ℕ} (hi : i < sizes.length) :
    nextBlock M h.mem (blockAddr sizes i) =
      .ok (if i + 1 < sizes.length then some (blockAddr sizes (i + 1)) else none) := by
  have hload := (hblocks.header i hi).next.load32
  simp only [Heap.nextBlock, hload, bind, Except.bind, nextAddr, Except.ok.injEq]
  by_cases hlast : i + 1 < sizes.length
  · have haddr := hblocks.toNat_blockAddr hi.le
    have haddr' := hblocks.toNat_blockAddr hlast.le
    have hlt := blockOffset_lt (show i < i + 1 by omega) hlast.le
    have hne : blockAddr sizes (i + 1) ≠ 0 ∧ blockAddr sizes i ≠ blockAddr sizes (i + 1) := by
      constructor
      · intro hzero
        have hzeroNat : (0 : Word).toNat = 0 := rfl
        rw [hzero, hzeroNat] at haddr'
        omega
      · intro heq
        rw [heq] at haddr
        omega
    rw [if_pos hlast, if_pos hne]
    simp [hlast]
  · by_cases hzero : i = 0
    · subst i
      simp [hlast]
    · simp [hlast, hzero]

/-- The traversal from block `i` visits the blocks from there on, in their order. -/
theorem Blocks.traverse (hblocks : Blocks M Ok h sizes) (fuel : ℕ) {i : ℕ} (hi : i < sizes.length)
    (hfuel : sizes.length - i ≤ fuel) :
    traverse M h.mem (blockAddr sizes i) fuel =
      .ok ((List.range' i (sizes.length - i)).map (blockAddr sizes)) := by
  induction fuel generalizing i with
  | zero => omega
  | succ fuel ih =>
    obtain ⟨n, hn⟩ : ∃ n, sizes.length - i = n + 1 := ⟨sizes.length - i - 1, by omega⟩
    simp only [Heap.traverse, hblocks.nextBlock hi, bind, Except.bind]
    by_cases hlast : i + 1 < sizes.length
    · have hrest : sizes.length - (i + 1) = n := by omega
      simp only [if_pos hlast, ih hlast (by omega), hn, hrest, List.range'_succ, List.map_cons]
    · have hn0 : n = 0 := by omega
      simp only [if_neg hlast, hn, hn0, List.range'_succ, List.map_cons, List.range'_zero,
        List.map_nil]

/-- The traversal ends at the last block. -/
theorem Blocks.foundBlock (hblocks : Blocks M Ok h sizes) (hne : sizes ≠ []) :
    foundBlock M h.mem kHeapStart = .ok (blockAddr sizes (sizes.length - 1)) := by
  have hlen : 0 < sizes.length := List.length_pos_iff.mpr hne
  have hmany := length_le_heapBytes sizes
  have hfit := hblocks.heapBytes_le
  have hrun := hblocks.traverse (2 ^ 32) hlen (by omega)
  rw [blockAddr_zero] at hrun
  obtain ⟨n, hn⟩ : ∃ n, sizes.length = n + 1 := ⟨sizes.length - 1, by omega⟩
  simp only [Heap.foundBlock, hrun, bind, Except.bind, hn, Nat.sub_zero, Nat.add_sub_cancel,
    List.range'_concat, List.map_append, List.map_cons, List.map_nil, List.getLastD_concat,
    Nat.zero_add, Nat.one_mul]

/-! ## One call -/

/-- The heap as `vmalloc` finds it after the initialising branch: the traversal ends
at the last block, and the end of that block is the end of all blocks. A heap without
blocks looks like one block of no bytes at `kHeapStart`. -/
structure Ready (M : PagedMemory σ Fault) (Ok : σ → Prop) (h : Heap σ) (sizes : List ℕ) : Prop
    extends Blocks M Ok h sizes where
  start : h.kheapStart = kHeapStart
  found : foundBlock M h.mem kHeapStart = .ok (blockAddr sizes (sizes.length - 1))
  foundSize : ∃ foundSize, blockSize M h.mem (blockAddr sizes (sizes.length - 1)) = .ok foundSize ∧
    blockAddr sizes (sizes.length - 1) + foundSize = blockAddr sizes sizes.length

/-- The traversal ends at a block without a next one. -/
theorem traverse_of_none {block : Word} (fuel : ℕ) (hfuel : 0 < fuel)
    (hnext : nextBlock M s block = .ok none) : traverse M s block fuel = .ok [block] := by
  cases fuel with
  | zero => omega
  | succ fuel => simp only [traverse, hnext, bind, Except.bind]

/-- The heap before the first call becomes ready by clearing its first page. -/
theorem Inv.initialise_nil (hM : M.Lawful Ok Err window) (hinv : Inv M Ok h []) :
    Outcome Err (fun h1 => Ready M Ok h1 []) (Heap.initialise M h) := by
  have hzeroStart : h.kheapStart = 0 := by simpa using hinv.start
  have hstart : kHeapStart.toNat = 0xE0000000 := rfl
  have hwindow : kHeapStart ∈ window := mem_window.mpr ⟨by rw [hstart], by rw [hstart]; omega⟩
  have hmap := mapPage_memset hM hinv.region.ok kHeapStart (by rw [hstart]) hwindow
  have hrun : Heap.initialise M h =
      (M.mapPage h.mem kHeapStart >>= fun t => M.memset t kHeapStart 0 4096) >>= fun s =>
        .ok { h with mem := s, kheapStart := kHeapStart, kheapTop := kHeapStart } := by
    rw [Heap.initialise, if_pos hzeroStart, bind_assoc]
  rw [hrun]
  refine hmap.bind fun s' ⟨hok', hzero, _⟩ => ?_
  have hword (a : Word) (ha : (a - kHeapStart).toNat < 4000) : M.Holds32 s' a 0 := by
    refine .of_zero fun k hk => hzero _ (mem_window.mpr ?_) ?_
    · bv_omega
    · bv_omega
  have hnext : nextBlock M s' kHeapStart = .ok none := by
    simp [nextBlock, (hword (kHeapStart + 4#32) (by bv_omega)).load32, bind, Except.bind]
  refine outcome_ok.mpr ⟨⟨⟨hok', ?_, ?_, ?_, fun x hx hlow => ?_, fun x hx _ hlow => ?_⟩,
    fun i hi => by simp at hi⟩, rfl, ?_, 0, ?_, ?_⟩
  · simp only [hstart]
  · simp only [hstart, heapBytes, List.length_nil, blockOffset_zero]
    omega
  · simp only [hstart]
    omega
  · rw [mem_window] at hx
    simp only [hstart] at hlow
    omega
  · rw [mem_window] at hx
    simp only [hstart] at hlow
    omega
  · have hrun := traverse_of_none (2 ^ 32) (by omega) hnext
    simp only [Heap.foundBlock, hrun, bind, Except.bind, List.length_nil, Nat.zero_sub,
      blockAddr_zero]
    rfl
  · simp [blockSize, (hword kHeapStart (by bv_omega)).load32, bind, Except.bind]
  · simp

/-- A heap with blocks is ready. -/
theorem Inv.ready (hinv : Inv M Ok h sizes) (hne : sizes ≠ []) : Ready M Ok h sizes := by
  obtain ⟨n, hn⟩ : ∃ n, sizes.length = n + 1 :=
    ⟨sizes.length - 1, by have := List.length_pos_iff.mpr hne; omega⟩
  have hpred : sizes.length - 1 = n := by omega
  have hheader := hinv.header n (by omega)
  have hsucc := blockOffset_succ (show n < sizes.length by omega)
  have hle := blockOffset_add_le (show n < sizes.length by omega)
  have hfit := hinv.heapBytes_le
  have hsize : (BitVec.ofNat 32 (sizes[n] + 12)).toNat = sizes[n] + 12 :=
    toNat_ofNat_of_lt (by omega)
  refine ⟨hinv.toBlocks, by rw [hinv.start, if_neg hne], hinv.foundBlock hne, ?_⟩
  refine ⟨BitVec.ofNat 32 (sizes[n] + 12), ?_, ?_⟩
  · rw [hpred]
    exact hheader.blockSize (by omega)
  · simp only [hn, Nat.add_sub_cancel, blockAddr, hsucc, BitVec.add_assoc, BitVec.ofNat_add]

/-- The initialising branch of `vmalloc` makes the heap ready, and keeps every block. -/
theorem Inv.initialise (hM : M.Lawful Ok Err window) (hinv : Inv M Ok h sizes) :
    Outcome Err (fun h1 => Ready M Ok h1 sizes ∧ (sizes ≠ [] → h1 = h)) (initialise M h) := by
  by_cases hne : sizes = []
  · subst sizes
    exact (hinv.initialise_nil hM).mono fun h1 hready => ⟨hready, fun h => absurd rfl h⟩
  · have hrun : Heap.initialise M h = .ok h := by
      have hstart : kHeapStart ≠ 0 := by decide
      rw [Heap.initialise, hinv.start, if_neg hne, if_neg hstart]
    exact .of_eq_ok hrun ⟨hinv.ready hne, fun _ => rfl⟩

/-- What a call of `vmalloc` leaves behind. -/
structure Allocated (M : PagedMemory σ Fault) (Ok : σ → Prop) (h : Heap σ) (sizes : List ℕ)
    (size : ℕ) (addr : Word) (h' : Heap σ) : Prop where
  inv : Inv M Ok h' (sizes ++ [size])
  addr_eq : addr = payloadAddr (sizes ++ [size]) sizes.length
  interrupts : h'.interrupts = true
  /-- The new payload is zero. -/
  zero : ∀ k < size, M.load8 h'.mem (addr + BitVec.ofNat 32 k) = .ok 0
  /-- Earlier payloads are unchanged. -/
  kept : ∀ x, InPayload sizes x → M.load8 h'.mem x = M.load8 h.mem x

/-- The links after a block is appended. -/
theorem nextAddr_append {i : ℕ} (hi : i < sizes.length) : nextAddr (sizes ++ [size]) i =
    if i + 1 = sizes.length then blockAddr sizes sizes.length else nextAddr sizes i := by
  have hlen : (sizes ++ [size]).length = sizes.length + 1 := by simp
  rw [nextAddr, hlen, if_pos (by omega), blockAddr_append (by omega)]
  by_cases hlast : i + 1 = sizes.length
  · rw [if_pos hlast, hlast]
  · rw [if_neg hlast, nextAddr, if_pos (by omega)]

/-- The link of a new block, which is itself if there is no other one. -/
theorem nextAddr_length (sizes : List ℕ) (size : ℕ) : nextAddr (sizes ++ [size]) sizes.length =
    if heapBytes sizes = 0 then kHeapStart else 0 := by
  have hlen : (sizes ++ [size]).length = sizes.length + 1 := by simp
  have hmany := length_le_heapBytes sizes
  have hzero : sizes.length = 0 ↔ heapBytes sizes = 0 := by
    constructor
    · intro h
      rw [List.length_eq_zero_iff.mp h]
      rfl
    · omega
  rw [nextAddr, if_neg (by omega), blockAddr_zero]
  simp only [hzero]

/-- An appended block extends the list of blocks. -/
theorem Ready.append (hready : Ready M Ok h sizes) {addr : Word} {h' : Heap σ}
    (hfit : heapBytes sizes + size + 12 ≤ 0x10000000)
    (happ : Appended M Ok h (heapBytes sizes) (blockAddr sizes (sizes.length - 1))
      (BitVec.ofNat 32 (size + 12)) addr h') : Inv M Ok h' (sizes ++ [size]) := by
  have hlen : (sizes ++ [size]).length = sizes.length + 1 := by simp
  have hsize : (BitVec.ofNat 32 (size + 12)).toNat = size + 12 := toNat_ofNat_of_lt (by omega)
  have hregion := happ.region
  rw [hsize, ← Nat.add_assoc, ← heapBytes_append] at hregion
  refine ⟨⟨hregion, fun i hi => ?_⟩, by simp [happ.start, hready.start]⟩
  have htop := hready.region.used_le
  rw [hlen] at hi
  by_cases hnew : i = sizes.length
  · subst i
    rw [List.getElem_concat_length rfl, nextAddr_length, blockAddr_append le_rfl,
      blockAddr_append (by omega)]
    exact happ.header
  · have hi' : i < sizes.length := by omega
    have haddr := hready.toNat_blockAddr hi'.le
    have hend := blockOffset_add_le hi'
    have hold := hready.header i hi'
    have hbelow (x : Word) (hx : (x - blockAddr sizes i).toNat < 12) : x ∈ window ∧
        x.toNat = 0xE0000000 + blockOffset sizes i + (x - blockAddr sizes i).toNat := by
      rw [mem_window]
      bv_omega
    rw [List.getElem_append_left hi', nextAddr_append hi', blockAddr_append (by omega),
      blockAddr_append (by omega)]
    have hlast := hready.toNat_blockAddr (show sizes.length - 1 ≤ sizes.length by omega)
    by_cases hi1 : i + 1 = sizes.length
    · have hpred : sizes.length - 1 = i := by omega
      rw [if_pos hi1]
      have hlink := happ.link
      rw [hpred] at hlink
      apply hold.setNext hlink
      intro x hx hother
      obtain ⟨hxin, hxnat⟩ := hbelow x hx
      exact happ.same x hxin (by omega) (by rwa [hpred]) (by omega)
    · rw [if_neg hi1]
      apply hold.congr
      intro x hx
      obtain ⟨hxin, hxnat⟩ := hbelow x hx
      have hlt := blockOffset_lt (show i < sizes.length - 1 by omega)
        (show sizes.length - 1 ≤ sizes.length by omega)
      have hlast' := blockOffset_add_le (show sizes.length - 1 < sizes.length by omega)
      exact happ.same x hxin (by omega) (by bv_omega) (by omega)

/-- A payload byte as a number. -/
theorem InPayload.toNat {x : Word} (hx : InPayload sizes x) (hfit : heapBytes sizes ≤ 0x10000000) :
    ∃ i, ∃ hi : i < sizes.length, ∃ k < sizes[i],
      x.toNat = 0xE0000000 + blockOffset sizes i + 12 + k := by
  obtain ⟨i, hi, k, hk, rfl⟩ := hx
  have hend := blockOffset_add_le hi
  have haddr := Heap.toNat_blockAddr (show blockOffset sizes i ≤ 0x10000000 by omega)
  refine ⟨i, hi, k, hk, ?_⟩
  rw [payloadAddr]
  bv_omega

/-- The invariant does not depend on the interrupt flag. -/
theorem Inv.withInterrupts (hinv : Inv M Ok h sizes) (on : Bool) :
    Inv M Ok { h with interrupts := on } sizes :=
  ⟨⟨⟨hinv.region.ok, hinv.region.top_aligned, hinv.region.used_le, hinv.region.top_le,
    hinv.region.mapped, hinv.region.fresh⟩, hinv.header⟩, hinv.start⟩

/-- One call of `vmalloc` with a size that is not zero and that fits. -/
theorem vmalloc_spec (hM : M.Lawful Ok Err window) (hinv : Inv M Ok h sizes) (hsize : 1 ≤ size)
    (hfit : heapBytes sizes + size + 12 ≤ 0x10000000) :
    Outcome Err (fun r => Allocated M Ok h sizes size r.1 r.2)
      (vmalloc M h (BitVec.ofNat 32 size)) := by
  have hsizeNat : (BitVec.ofNat 32 size).toNat = size := toNat_ofNat_of_lt (by omega)
  have hne : BitVec.ofNat 32 size ≠ 0 := by
    intro h
    have hzero : (0 : Word).toNat = 0 := rfl
    rw [h, hzero] at hsizeNat
    omega
  have hsum : BitVec.ofNat 32 size + 12#32 = BitVec.ofNat 32 (size + 12) := by
    rw [BitVec.ofNat_add]
  have hsumNat : (BitVec.ofNat 32 (size + 12)).toNat = size + 12 := toNat_ofNat_of_lt (by omega)
  rw [vmalloc, if_neg hne]
  refine ((hinv.withInterrupts false).initialise hM).bind fun h1 ⟨hready, hsame⟩ => ?_
  rw [hready.start, hready.found, hsum]
  obtain ⟨foundSize, hfs, hend⟩ := hready.foundSize
  have hplace : blockOffset sizes (sizes.length - 1) + 12 ≤ heapBytes sizes ∨
      heapBytes sizes = 0 ∧ blockOffset sizes (sizes.length - 1) = 0 := by
    by_cases hnil : sizes = []
    · subst sizes
      exact Or.inr ⟨rfl, rfl⟩
    · have hlen := List.length_pos_iff.mpr hnil
      have := blockOffset_add_le (show sizes.length - 1 < sizes.length by omega)
      omega
  have happend := appendBlock_spec hM (blockOffset sizes (sizes.length - 1))
    (BitVec.ofNat 32 (size + 12)) hready.region rfl hplace hfs hend (by omega) (by omega)
  apply happend.mono
  intro r happ
  have haddr : r.1 = payloadAddr (sizes ++ [size]) sizes.length := by
    rw [happ.addr_eq, payloadAddr, blockAddr_append le_rfl]
    rfl
  have hused : blockOffset sizes sizes.length ≤ 0x10000000 := by
    change heapBytes sizes ≤ _
    omega
  have hblock := Heap.toNat_blockAddr hused
  refine ⟨hready.append hfit happ, haddr, happ.interrupts, fun k hk => ?_, fun x hx => ?_⟩
  · have hnat : (r.1 + BitVec.ofNat 32 k).toNat = 0xE0000000 + heapBytes sizes + 12 + k := by
      rw [haddr, payloadAddr, blockAddr_append le_rfl]
      change _ = 0xE0000000 + heapBytes sizes at hblock
      bv_omega
    exact happ.zero _ (mem_window.mpr (by omega)) (by omega) (by omega)
  · obtain ⟨i, hi, k, hk, hxnat⟩ := hx.toNat (by omega)
    have hnil : sizes ≠ [] := by
      rintro rfl
      simp at hi
    have hend := blockOffset_add_le hi
    have htop := hready.region.used_le
    have hlast := blockOffset_le (show sizes.length - 1 ≤ sizes.length by omega)
    have hfound := hready.toNat_blockAddr (show sizes.length - 1 ≤ sizes.length by omega)
    have hfar : 4 ≤ (x - (blockAddr sizes (sizes.length - 1) + 4#32)).toNat := by
      by_cases hil : i = sizes.length - 1
      · rw [hil] at hxnat
        bv_omega
      · have := blockOffset_lt (show i < sizes.length - 1 by omega)
          (show sizes.length - 1 ≤ sizes.length by omega)
        bv_omega
    have hkeep := happ.same x (mem_window.mpr (by omega)) (by omega) hfar (by omega)
    rw [hkeep, hsame hnil]

/-- A payload byte lies in no header. -/
theorem InPayload.not_header {x : Word} (hx : InPayload sizes x)
    (hfit : heapBytes sizes ≤ 0x10000000) {i : ℕ} (hi : i < sizes.length) :
    12 ≤ (x - blockAddr sizes i).toNat := by
  obtain ⟨j, hj, k, hk, hxnat⟩ := hx.toNat hfit
  have hend := blockOffset_add_le hi
  have haddr := Heap.toNat_blockAddr (show blockOffset sizes i ≤ 0x10000000 by omega)
  rcases Nat.lt_trichotomy i j with h | h | h
  · have := blockOffset_lt h hj.le
    bv_omega
  · subst h
    bv_omega
  · have := blockOffset_lt h hi.le
    bv_omega

/-- The headers lie in the heap. -/
theorem Blocks.header_mem_window (hblocks : Blocks M Ok h sizes) {i : ℕ} (hi : i < sizes.length)
    {x : Word} (hx : (x - blockAddr sizes i).toNat < 12) : x ∈ window := by
  have hend := blockOffset_add_le hi
  have haddr := hblocks.toNat_blockAddr hi.le
  have hfit := hblocks.heapBytes_le
  rw [mem_window]
  bv_omega

/-- The invariant survives whatever keeps the accessible bytes of the heap. -/
theorem Inv.extend (hinv : Inv M Ok h sizes) {s' : σ} (hok : Ok s')
    (hkeep : ∀ x ∈ window, ∀ b, M.load8 h.mem x = .ok b → M.load8 s' x = .ok b) :
    Inv M Ok { h with mem := s' } sizes := by
  have hregion := hinv.region
  refine ⟨⟨⟨hok, hregion.top_aligned, hregion.used_le, hregion.top_le, fun x hx hlow => ?_,
    fun x hx habove hlow => ?_⟩, fun i hi => ?_⟩, hinv.start⟩
  · obtain ⟨b, hb⟩ := hregion.mapped x hx hlow
    exact ⟨b, hkeep x hx b hb⟩
  · exact hkeep x hx 0 (hregion.fresh x hx habove hlow)
  · have haddr := hinv.toNat_blockAddr hi.le
    have hend := blockOffset_add_le hi
    have htop := hregion.used_le
    apply (hinv.header i hi).congr
    intro x hx
    have hxin := hinv.header_mem_window hi hx
    obtain ⟨b, hb⟩ := hregion.mapped x hxin (by bv_omega)
    rw [hb, hkeep x hxin b hb]

/-- Writing into a payload keeps the invariant. -/
theorem Inv.write (hM : M.Lawful Ok Err window) (hinv : Inv M Ok h sizes) {x : Word} {b : Byte}
    (hx : InPayload sizes x) :
    ∃ s', M.store8 h.mem x b = .ok s' ∧ Inv M Ok { h with mem := s' } sizes := by
  have hfit := hinv.heapBytes_le
  obtain ⟨i, hi, k, hk, hxnat⟩ := hx.toNat hfit
  have hend := blockOffset_add_le hi
  have htop := hinv.region.used_le
  have htop' := hinv.region.top_le
  have hxin : x ∈ window := mem_window.mpr (by omega)
  obtain ⟨old, hold⟩ := hinv.region.mapped x hxin (by omega)
  obtain ⟨s', hrun, hok', hload⟩ := hM.store8 (b := b) hinv.region.ok hxin hold
  refine ⟨s', hrun, ⟨⟨⟨hok', hinv.region.top_aligned, htop, htop', fun y hy hlow => ?_,
    fun y hy habove hlow => ?_⟩, fun j hj => ?_⟩, hinv.start⟩⟩
  · change ∃ c, M.load8 s' y = .ok c
    rw [hload y hy]
    split_ifs
    · exact ⟨b, rfl⟩
    · exact hinv.region.mapped y hy hlow
  · have hne : y ≠ x := by
      rintro rfl
      omega
    change M.load8 s' y = _
    rw [hload y hy, if_neg hne]
    exact hinv.region.fresh y hy habove hlow
  · apply (hinv.header j hj).congr
    intro y hy
    have hne : y ≠ x := by
      rintro rfl
      have := hx.not_header hfit hj
      omega
    rw [hload y (hinv.header_mem_window hj hy), if_neg hne]

/-- The memory that a write into a payload leaves. -/
theorem Inv.stored (hM : M.Lawful Ok Err window) (hinv : Inv M Ok h sizes) {x : Word} {b : Byte}
    {t : σ} (hx : InPayload sizes x) (hstore : M.store8 h.mem x b = .ok t) :
    Inv M Ok { h with mem := t } sizes := by
  obtain ⟨t', hstore', hinv'⟩ := hinv.write hM (b := b) hx
  obtain rfl : t = t' := Except.ok.inj (hstore.symm.trans hstore')
  exact hinv'

/-- Payloads lie below the end of the blocks. -/
theorem InPayload.lt {x : Word} (hx : InPayload sizes x) (hfit : heapBytes sizes ≤ 0x10000000) :
    0xE0000000 ≤ x.toNat ∧ x.toNat < 0xE0000000 + heapBytes sizes := by
  obtain ⟨i, hi, k, hk, hxnat⟩ := hx.toNat hfit
  have hend := blockOffset_add_le hi
  omega

/-- The payloads are in the window of the heap. -/
theorem InPayload.mem_window {x : Word} (hx : InPayload sizes x)
    (hfit : heapBytes sizes ≤ 0x10000000) : x ∈ window := by
  have := hx.lt hfit
  exact Heap.mem_window.mpr (by omega)

/-- Every byte of a payload that was handed out can be read. -/
theorem Inv.load (hinv : Inv M Ok h sizes) {x : Word} (hx : InPayload sizes x) :
    ∃ b, M.load8 h.mem x = .ok b := by
  have hlt := hx.lt hinv.heapBytes_le
  have htop := hinv.region.used_le
  exact hinv.region.mapped x (hx.mem_window hinv.heapBytes_le) (by omega)

/-- What a write into a payload changes. -/
theorem Inv.load_stored (hM : M.Lawful Ok Err window) (hinv : Inv M Ok h sizes) {x : Word}
    {b : Byte} {t : σ} (hx : InPayload sizes x) (hstore : M.store8 h.mem x b = .ok t) :
    ∀ y ∈ window, M.load8 t y = if y = x then .ok b else M.load8 h.mem y := by
  obtain ⟨old, hold⟩ := hinv.load hx
  obtain ⟨t', hstore', -, hload⟩ :=
    hM.store8 (b := b) hinv.region.ok (hx.mem_window hinv.heapBytes_le) hold
  obtain rfl : t = t' := Except.ok.inj (hstore.symm.trans hstore')
  exact hload

end Heap

end Muk
