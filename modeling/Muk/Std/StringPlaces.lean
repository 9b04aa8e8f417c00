import Muk.Std.StringBuffers

/-!
# Buffers in the heap

The arrays of strings are blocks of the kernel heap, in the order in which they are allocated.
What the operations do to the arrays they do to the bytes of the blocks. A cell without a
character may be any byte.
-/

namespace Muk

open Heap TrackedHeap

variable {σ : Type} {M : PagedMemory σ Fault} {Ok : σ → Prop} {Err : Fault → Prop}
  {s t : Arrays Byte} {g g' : TrackedHeap σ} {sizes sizes' : List ℕ} {str : BufferString}
  {size pos count src dest : Word} {c : Byte} {b b' i k k' n : ℕ} {chars chars' : List Byte}

/-- The address of an array: the payload of its block, or `NULL`. -/
def arrayAddr (sizes : List ℕ) (b : ℕ) : Word := if b = 0 then 0 else payloadAddr sizes (b - 1)

/-- The arrays are the blocks of the heap, with their characters. -/
structure InBlocks (M : PagedMemory σ Fault) (Ok : σ → Prop) (s : Arrays Byte) (g : TrackedHeap σ) :
    Prop where
  inHeap : BufferString.InHeap s
  inv : Inv M Ok g.heap g.sizes
  sizes : g.sizes = s.sizes
  unused : ∀ b, s.count ≤ b → s.array b = []
  cell : ∀ b k c, (s.array b)[k]? = some (some c) →
    M.load8 g.heap.mem (arrayAddr g.sizes b + BitVec.ofNat 32 k) = .ok c

/-- Each block of the heap has its array, and the null pointer has one. -/
theorem InBlocks.count_eq (h : InBlocks M Ok s g) : s.count = g.sizes.length + 1 := by
  have hpos := h.inHeap.count_pos
  rw [h.sizes, Arrays.sizes, List.length_map, List.length_range]
  omega

/-- An array keeps its address when blocks are appended. -/
theorem InBlocks.arrayAddr_eq (h : InBlocks M Ok s g) (hextends : g.sizes <+: sizes')
    (hb : b < s.count) : arrayAddr sizes' b = arrayAddr g.sizes b := by
  obtain ⟨more, rfl⟩ := hextends
  have hcount := h.count_eq
  rw [arrayAddr, arrayAddr, payloadAddr_append (by omega)]

/-- The block of an array with characters. -/
theorem InBlocks.block (h : InBlocks M Ok s g) (hk : k < (s.array b).length) :
    0 < b ∧ b < s.count ∧ ∃ hi : b - 1 < g.sizes.length, k < g.sizes[b - 1] := by
  have hpos : 0 < b := by
    apply Nat.pos_of_ne_zero
    rintro rfl
    rw [h.inHeap.null] at hk
    exact absurd hk (Nat.not_lt_zero k)
  have hlt : b < s.count := by
    by_contra hge
    rw [h.unused b (Nat.le_of_not_lt hge)] at hk
    exact absurd hk (Nat.not_lt_zero k)
  obtain ⟨hi, hsize⟩ := Arrays.getElem_sizes hpos hlt
  have hsizes := h.sizes
  refine ⟨hpos, hlt, by rwa [hsizes], ?_⟩
  simp only [hsizes, hsize]
  exact hk

/-- The bytes of an array are in the payload of its block. -/
theorem InBlocks.inPayload (h : InBlocks M Ok s g) (hk : k < (s.array b).length) :
    InPayload g.sizes (arrayAddr g.sizes b + BitVec.ofNat 32 k) := by
  obtain ⟨hpos, -, hi, hlt⟩ := h.block hk
  exact ⟨b - 1, hi, k, hlt, by rw [arrayAddr, if_neg (by omega)]⟩

/-- The address of a character as a number. -/
theorem InBlocks.toNat_addr (h : InBlocks M Ok s g) (hk : k < (s.array b).length) :
    (arrayAddr g.sizes b + BitVec.ofNat 32 k).toNat =
      0xE0000000 + blockOffset g.sizes (b - 1) + 12 + k := by
  obtain ⟨hpos, -, hi, hlt⟩ := h.block hk
  have hend := blockOffset_add_le hi
  have hfit := h.inv.heapBytes_le
  have haddr := Heap.toNat_blockAddr (show blockOffset g.sizes (b - 1) ≤ 0x10000000 by omega)
  rw [arrayAddr, if_neg (by omega), payloadAddr]
  bv_omega

/-- Different cells lie at different addresses. -/
theorem InBlocks.addr_inj (h : InBlocks M Ok s g) (hk : k < (s.array b).length)
    (hk' : k' < (s.array b').length)
    (heq : arrayAddr g.sizes b + BitVec.ofNat 32 k = arrayAddr g.sizes b' + BitVec.ofNat 32 k') :
    b = b' ∧ k = k' := by
  obtain ⟨hpos, -, hi, hlt⟩ := h.block hk
  obtain ⟨hpos', -, hi', hlt'⟩ := h.block hk'
  have hnat := congrArg BitVec.toNat heq
  rw [h.toNat_addr hk, h.toNat_addr hk'] at hnat
  rcases Nat.lt_trichotomy (b - 1) (b' - 1) with hbefore | hsame | hbehind
  · have := blockOffset_lt hbefore hi'.le
    omega
  · rw [hsame] at hnat
    omega
  · have := blockOffset_lt hbehind hi.le
    omega

/-! ## Simulation -/

/-- What is read of an array is read of its block. -/
theorem InBlocks.read (h : InBlocks M Ok s g) (hrun : s.read b k = .ok c) :
    M.load8 g.heap.mem (arrayAddr g.sizes b + BitVec.ofNat 32 k) = .ok c := by
  apply h.cell
  rw [Arrays.read] at hrun
  split at hrun
  · cases hrun
  · cases hrun
  · obtain rfl := Except.ok.inj hrun
    assumption

/-- A byte written to an array is written to its block. -/
theorem InBlocks.write (hM : M.Lawful Ok Err window) (h : InBlocks M Ok s g)
    (hrun : s.write b k c = .ok t) :
    ∃ m, M.store8 g.heap.mem (arrayAddr g.sizes b + BitVec.ofNat 32 k) c = .ok m ∧
      InBlocks M Ok t (g.withMem m) := by
  have hk : k < (s.array b).length := by
    by_contra hge
    rw [Arrays.write, Arrays.put, if_neg hge] at hrun
    cases hrun
  obtain ⟨t', hrun', hcount, harray, hother⟩ := Arrays.put_spec (some c) hk
  obtain rfl := Except.ok.inj (hrun.symm.trans hrun')
  have hx := h.inPayload hk
  obtain ⟨m, hstore, hinv⟩ := h.inv.write hM (b := c) hx
  have hload := h.inv.load_stored hM hx hstore
  have hlength := Arrays.length_congr (by rw [harray, List.length_set]) hother
  have hsizes : t.sizes = s.sizes := Arrays.sizes_congr hcount hlength
  refine ⟨m, hstore, h.inHeap.congr hcount hlength, hinv, h.sizes.trans hsizes.symm,
    fun x hx => ?_, ?_⟩
  · rw [← List.length_eq_zero_iff, hlength, h.unused x (hcount ▸ hx), List.length_nil]
  · intro x j d hcell
    have hj : j < (s.array x).length := by
      rw [← hlength]
      exact (List.getElem?_eq_some_iff.mp hcell).1
    change M.load8 m (arrayAddr g.sizes x + BitVec.ofNat 32 j) = _
    rw [hload _ ((h.inPayload hj).mem_window h.inv.heapBytes_le)]
    split_ifs with heq
    · obtain ⟨rfl, rfl⟩ := h.addr_inj hj hk heq
      rw [harray, List.getElem?_set_self hk] at hcell
      rw [Option.some.inj (Option.some.inj hcell)]
    · apply h.cell
      by_cases hxb : x = b
      · subst hxb
        have hne : k ≠ j := fun hkj => heq (by rw [hkj])
        rwa [harray, List.getElem?_set_ne hne] at hcell
      · rwa [hother x hxb] at hcell

/-- A new array is a new block. -/
theorem InBlocks.newChars (hM : M.Lawful Ok Err window) (h : InBlocks M Ok s g)
    (hrun : BufferString.newChars s size = .ok (b, t)) :
    Outcome Err (fun r => r.1 = arrayAddr r.2.sizes b ∧ g.sizes <+: r.2.sizes ∧
      InBlocks M Ok t r.2) (TrackedHeap.newChars M g size) := by
  rw [BufferString.newChars] at hrun
  by_cases hzero : size = 0
  · rw [if_pos hzero] at hrun
    obtain ⟨rfl, rfl⟩ := Prod.mk.inj (Except.ok.inj hrun)
    rw [hzero, TrackedHeap.newChars, vmalloc_zero]
    exact ⟨rfl, List.prefix_rfl, h.inHeap, h.inv.withInterrupts false, h.sizes, h.unused, h.cell⟩
  · rw [if_neg hzero] at hrun
    split_ifs at hrun with hfit
    have hrun := Except.ok.inj hrun
    have hcount := h.inHeap.count_pos
    have hsizes := Arrays.sizes_alloc (n := size.toNat) hcount
    obtain ⟨hb, hcount', harray, hother⟩ := Arrays.alloc_spec hrun
    rw [hrun, ← h.sizes] at hsizes
    rw [← h.sizes] at hfit
    have hlength := h.count_eq
    rw [Heap.heapBytes_append] at hfit
    refine (newChars_allocated hM h.inv hzero hfit).mono fun r hnew => ?_
    obtain ⟨hr, halloc⟩ := hnew
    have hprefix : g.sizes <+: r.2.sizes := hr ▸ List.prefix_append _ _
    refine ⟨?_, hprefix, ⟨?_, by omega, ?_⟩, hr ▸ halloc.inv, hr.trans hsizes.symm, ?_, ?_⟩
    · rw [halloc.addr_eq, hr, arrayAddr, if_neg (by omega)]
      congr 1
      omega
    · rw [hother 0 (by omega), h.inHeap.null]
    · rw [hsizes, Heap.heapBytes_append]
      exact hfit
    · intro x hx
      rw [hother x (by omega), h.unused x (by omega)]
    · intro x j d hcell
      by_cases hxb : x = b
      · rw [hxb, harray, List.getElem?_replicate] at hcell
        split_ifs at hcell
        simp at hcell
      · rw [hother x hxb] at hcell
        have hj : j < (s.array x).length := (List.getElem?_eq_some_iff.mp hcell).1
        obtain ⟨-, hlt, -⟩ := h.block hj
        rw [h.arrayAddr_eq hprefix hlt, halloc.kept _ (h.inPayload hj)]
        exact h.cell x j d hcell

/-- Bytes copied between arrays are copied between their blocks. -/
theorem InBlocks.copyAt (hM : M.Lawful Ok Err window) (h : InBlocks M Ok s g) {index : ℕ → ℕ}
    {offset : ℕ} (src dest : Word)
    (hsrc : ∀ i < n, arrayAddr g.sizes b + BitVec.ofNat 32 (index i) = src + BitVec.ofNat 32 i)
    (hdest : arrayAddr g.sizes b' + BitVec.ofNat 32 offset = dest)
    (hrun : s.copyAt b' offset b index n = .ok t) :
    ∃ m, copyBytes M g.heap.mem dest src n = .ok m ∧ InBlocks M Ok t (g.withMem m) := by
  induction n generalizing t with
  | zero =>
    obtain rfl := Except.ok.inj hrun
    exact ⟨g.heap.mem, rfl, h⟩
  | succ n ih =>
    obtain ⟨u, hbefore, hlast⟩ := bind_eq_ok.mp hrun
    obtain ⟨c, hread, hwrite⟩ := bind_eq_ok.mp hlast
    obtain ⟨m, hcopy, hu⟩ := ih (fun i hi => hsrc i (by omega)) hbefore
    have hload := hu.read hread
    obtain ⟨m', hstore, ht⟩ := hu.write hM hwrite
    have haddr : arrayAddr g.sizes b' + BitVec.ofNat 32 (offset + (0 + n)) =
        dest + BitVec.ofNat 32 (0 + n) := by
      rw [← hdest, BitVec.ofNat_add, BitVec.add_assoc]
    refine ⟨m', ?_, ht⟩
    change M.load8 m (arrayAddr g.sizes b + BitVec.ofNat 32 (index (0 + n))) = _ at hload
    change M.store8 m (arrayAddr g.sizes b' + BitVec.ofNat 32 (offset + (0 + n))) c = _ at hstore
    rw [Nat.zero_add, hsrc n (by omega)] at hload
    rw [haddr, Nat.zero_add] at hstore
    rw [copyBytes] at hcopy ⊢
    rw [forLoop, hcopy, ok_bind, Nat.zero_add, hload, ok_bind, hstore]

/-- The NUL that ends the scan in an array ends it in memory. -/
theorem InBlocks.strlen (h : InBlocks M Ok s g) (hrun : BufferString.strlen s b = .ok size) :
    b < s.count ∧ Muk.strlen M g.heap.mem (arrayAddr g.sizes b) = .ok size := by
  rw [BufferString.strlen] at hrun
  split at hrun
  · rename_i text hscan
    obtain ⟨htext, hlt⟩ := readString_eq_ok.mp hscan
    have hcell : ∀ k c, BufferString.cells s b (0 + k) = some c →
        M.cells g.heap.mem ((arrayAddr g.sizes b).toNat + k) = some c := by
      intro k c hk
      rw [BufferString.cells, Nat.zero_add, Option.join_eq_some_iff] at hk
      exact cells_add_eq_some.mpr (h.cell b k c hk)
    have hmem : Text (M.cells g.heap.mem) (arrayAddr g.sizes b).toNat text := by
      apply Text.of_bytes _ htext.ne_zero (hcell _ _ htext.nul)
      refine bytes_iff.mpr fun i hi => ?_
      have hbyte := bytes_iff.mp htext.bytes i hi
      rw [List.getElem?_eq_getElem hi] at hbyte ⊢
      exact hcell i _ hbyte
    have hlast := Option.join_eq_some_iff.mp htext.nul
    obtain ⟨hk, -⟩ := List.getElem?_eq_some_iff.mp hlast
    obtain ⟨-, hb, -⟩ := h.block hk
    have hle := h.inHeap.length_le hb
    have hscan' : scanNul M g.heap.mem (arrayAddr g.sizes b) = .ok text :=
      readString_eq_ok.mpr ⟨hmem, by omega⟩
    rw [Muk.strlen, hscan', ← Except.ok.inj hrun]
    exact ⟨hb, rfl⟩
  · cases hrun

/-- A string in memory. -/
def BufferString.place (sizes : List ℕ) (str : BufferString) : StdString :=
  { length := str.length, buff := arrayAddr sizes str.buff }

/-- A string and a heap, as they are made of a string and its arrays. -/
structure Follows (M : PagedMemory σ Fault) (Ok : σ → Prop) (g : TrackedHeap σ) (str : BufferString)
    (t : Arrays Byte) (r : StdString × TrackedHeap σ) : Prop where
  place : r.1 = str.place r.2.sizes
  isPrefix : g.sizes <+: r.2.sizes
  inBlocks : InBlocks M Ok t r.2

/-- Making a string of an array makes one of its block. -/
theorem InBlocks.ofArray (hM : M.Lawful Ok Err window) (h : InBlocks M Ok s g) {length : Word}
    (hb : b < s.count) (hrun : BufferString.ofArray s b length = .ok (str, t)) :
    Outcome Err (Follows M Ok g str t) (StdString.ofArray M g (arrayAddr g.sizes b) length) := by
  obtain ⟨⟨buff, u⟩, hnew, hrun⟩ := bind_eq_ok.mp hrun
  obtain ⟨u', hcopy, hrun⟩ := bind_eq_ok.mp hrun
  obtain ⟨rfl, rfl⟩ := Prod.mk.inj (Except.ok.inj hrun)
  rw [StdString.ofArray]
  refine (h.newChars hM hnew).bind fun p hp => ?_
  obtain ⟨addr, g'⟩ := p
  obtain ⟨haddr, hprefix, hu⟩ := hp
  dsimp only at haddr hprefix hu ⊢
  subst haddr
  have hstay : arrayAddr g'.sizes b = arrayAddr g.sizes b := h.arrayAddr_eq hprefix hb
  obtain ⟨m, hcopied, hm⟩ := hu.copyAt hM (arrayAddr g.sizes b) (arrayAddr g'.sizes buff)
    (fun i _ => by rw [hstay]; rfl) (BitVec.add_zero _) hcopy
  rw [Muk.strncpy, hcopied]
  exact ⟨rfl, hprefix, hm⟩

/-- Making a string of a C string in an array makes one of that in its block. -/
theorem InBlocks.ofChars (hM : M.Lawful Ok Err window) (h : InBlocks M Ok s g)
    (hrun : BufferString.ofChars s b = .ok (str, t)) :
    Outcome Err (Follows M Ok g str t) (StdString.ofChars M g (arrayAddr g.sizes b)) := by
  obtain ⟨length, hscan, hrun⟩ := bind_eq_ok.mp hrun
  obtain ⟨hb, hscan'⟩ := h.strlen hscan
  rw [StdString.ofChars, hscan']
  exact h.ofArray hM hb hrun

/-- A part of a string in an array is a part of that in its block. -/
theorem InBlocks.substr (hM : M.Lawful Ok Err window) (h : InBlocks M Ok s g)
    (hb : str.buff < s.count) {r : BufferString}
    (hrun : BufferString.substr s str pos count = .ok (r, t)) :
    Outcome Err (Follows M Ok g r t) (StdString.substr M g (str.place g.sizes) pos count) := by
  rw [BufferString.substr] at hrun
  rw [StdString.substr, BufferString.place]
  generalize (if str.length < pos + count ∨ count = StdString.npos then str.length - pos
    else count) = c at hrun ⊢
  obtain ⟨⟨dest, u⟩, hdest, hchars⟩ := bind_eq_ok.mp hrun
  obtain ⟨⟨dest', u1⟩, hnew, hdest⟩ := bind_eq_ok.mp hdest
  obtain ⟨u2, hcopy, hdest⟩ := bind_eq_ok.mp hdest
  obtain ⟨u3, hwrite, hdest⟩ := bind_eq_ok.mp hdest
  obtain ⟨rfl, rfl⟩ := Prod.mk.inj (Except.ok.inj hdest)
  refine (h.newChars hM hnew).bind fun p hp => ?_
  obtain ⟨addr, g'⟩ := p
  obtain ⟨haddr, hprefix, hu⟩ := hp
  dsimp only at haddr hprefix hu ⊢
  subst haddr
  have hstay : arrayAddr g'.sizes str.buff = arrayAddr g.sizes str.buff := h.arrayAddr_eq hprefix hb
  have hsrc (i : ℕ) :
      arrayAddr g'.sizes str.buff + BitVec.ofNat 32 (pos + BitVec.ofNat 32 i).toNat =
        arrayAddr g.sizes str.buff + pos + BitVec.ofNat 32 i := by
    rw [hstay, BitVec.ofNat_toNat, BitVec.setWidth_eq, BitVec.add_assoc]
  obtain ⟨m, hcopied, hu2⟩ := hu.copyAt hM _ _ (fun i _ => hsrc i) (BitVec.add_zero _) hcopy
  obtain ⟨m', hstored, hu3⟩ := hu2.write hM hwrite
  change M.store8 m (arrayAddr g'.sizes dest' + BitVec.ofNat 32 c.toNat) 0 = _ at hstored
  rw [BitVec.ofNat_toNat, BitVec.setWidth_eq] at hstored
  rw [hcopied, ok_bind, hstored, ok_bind]
  refine (hu3.ofChars hM hchars).mono fun r' hr => ?_
  exact ⟨hr.place, hprefix.trans hr.isPrefix, hr.inBlocks⟩

/-- Appending strings in arrays appends those in their blocks. -/
theorem InBlocks.append (hM : M.Lawful Ok Err window) (h : InBlocks M Ok s g)
    {s2 : BufferString} (hb : str.buff < s.count) (hb2 : s2.buff < s.count) {r : BufferString}
    (hrun : BufferString.append s str s2 = .ok (r, t)) :
    Outcome Err (Follows M Ok g r t)
      (StdString.append M g (str.place g.sizes) (s2.place g.sizes)) := by
  obtain ⟨⟨buff, u⟩, hnew, hrun⟩ := bind_eq_ok.mp hrun
  obtain ⟨u1, hcopy, hrun⟩ := bind_eq_ok.mp hrun
  obtain ⟨u2, hcopy', hrun⟩ := bind_eq_ok.mp hrun
  obtain ⟨rfl, rfl⟩ := Prod.mk.inj (Except.ok.inj hrun)
  rw [StdString.append, BufferString.place, BufferString.place]
  refine (h.newChars hM hnew).bind fun p hp => ?_
  obtain ⟨addr, g'⟩ := p
  obtain ⟨haddr, hprefix, hu⟩ := hp
  dsimp only at haddr hprefix hu ⊢
  subst haddr
  have hstay := h.arrayAddr_eq hprefix hb
  have hstay2 := h.arrayAddr_eq hprefix hb2
  have hend : arrayAddr g'.sizes buff + BitVec.ofNat 32 str.length.toNat =
      arrayAddr g'.sizes buff + str.length := by
    rw [BitVec.ofNat_toNat, BitVec.setWidth_eq]
  obtain ⟨m, hcopied, hu1⟩ := hu.copyAt hM (arrayAddr g.sizes str.buff) _
    (fun i _ => by rw [hstay]; rfl) (BitVec.add_zero _) hcopy
  obtain ⟨m', hcopied', hu2⟩ := hu1.copyAt hM (arrayAddr g.sizes s2.buff) _
    (fun i _ => by
      change arrayAddr g'.sizes s2.buff + _ = _
      rw [hstay2]
      rfl) hend hcopy'
  change copyBytes M m _ _ _ = _ at hcopied'
  rw [Muk.strncpy, hcopied, ok_bind, Muk.strncpy, hcopied', ok_bind]
  exact ⟨rfl, hprefix, hu2⟩

/-! ## Strings of the heap -/

/-- A string in the heap has the characters of its array. -/
theorem InBlocks.shows (h : InBlocks M Ok s g) (hstr : BufferString.Represents s str chars) :
    ((str.place g.sizes).view M g.heap.mem).Shows chars :=
  ⟨hstr.length, fun i hi => h.cell _ i _ (hstr.getElem hi)⟩

/-- The blocks of a heap as arrays. -/
def heapArrays (M : PagedMemory σ Fault) (g : TrackedHeap σ) : Arrays Byte where
  count := g.sizes.length + 1
  array b :=
    if b = 0 then []
    else (List.range (g.sizes.getD (b - 1) 0)).map fun k =>
      (M.load8 g.heap.mem (arrayAddr g.sizes b + BitVec.ofNat 32 k)).toOption

/-- Each block is the array that the heap has for it. -/
theorem heapArrays_succ (g : TrackedHeap σ) (hi : i < g.sizes.length) :
    (heapArrays M g).array (i + 1) = (List.range g.sizes[i]).map fun k =>
      (M.load8 g.heap.mem (payloadAddr g.sizes i + BitVec.ofNat 32 k)).toOption := by
  simp [heapArrays, arrayAddr, hi]

/-- The arrays have the sizes of the blocks. -/
theorem sizes_heapArrays (g : TrackedHeap σ) : (heapArrays M g).sizes = g.sizes := by
  apply List.ext_getElem
  · simp [Arrays.sizes, heapArrays]
  · intro i hi hi'
    simp [Arrays.sizes, heapArrays_succ g hi']

/-- The heap is in the arrays that are read off it. -/
theorem heapArrays_inBlocks (hinv : Inv M Ok g.heap g.sizes) :
    InBlocks M Ok (heapArrays M g) g := by
  refine ⟨⟨rfl, Nat.succ_pos _, ?_⟩, hinv, (sizes_heapArrays g).symm, fun b hb => ?_, ?_⟩
  · rw [sizes_heapArrays]
    exact hinv.heapBytes_le
  · have hb' : g.sizes.length + 1 ≤ b := hb
    have hnone : g.sizes[b - 1]? = none := List.getElem?_eq_none (by omega)
    simp [heapArrays, hnone]
  · intro b k c hcell
    cases b with
    | zero => simp [heapArrays] at hcell
    | succ i =>
      have hi : i < g.sizes.length := by
        by_contra hge
        have hnone : g.sizes[i]? = none := List.getElem?_eq_none (by omega)
        simp [heapArrays, hnone] at hcell
      rw [heapArrays_succ g hi, List.getElem?_map, Option.map_eq_some_iff] at hcell
      obtain ⟨j, hj, hload⟩ := hcell
      obtain ⟨hk, hjk⟩ := List.getElem?_eq_some_iff.mp hj
      rw [← hjk, List.getElem_range] at hload
      exact cells_add_eq_some.mp ((cells_add _ _ _).trans hload)

/-- A string with an array in the heap is one of the heap's arrays. -/
theorem exists_represents {x : StdString}
    (harray : IsArray g.sizes x.buff x.length) (hshows : (x.view M g.heap.mem).Shows chars) :
    ∃ str : BufferString, str.place g.sizes = x ∧
      BufferString.Represents (heapArrays M g) str chars := by
  have hsize : x.length.toNat = chars.length := hshows.size
  rcases harray with ⟨hzero, hnull⟩ | ⟨-, i, hi, haddr, hlength⟩
  · have hnil : chars = [] := by
      rw [← List.length_eq_zero_iff, ← hsize, hzero]
      rfl
    refine ⟨⟨x.length, 0⟩, ?_, hsize, by rw [hnil]; rfl, Nat.succ_pos _⟩
    rw [BufferString.place, arrayAddr, if_pos rfl, ← hnull]
  · refine ⟨⟨x.length, i + 1⟩, ?_, hsize, ?_, Nat.succ_lt_succ hi⟩
    · rw [BufferString.place, arrayAddr, if_neg (Nat.succ_ne_zero i), Nat.add_sub_cancel, ← haddr]
    · rw [heapArrays_succ g hi, hlength, hsize]
      apply List.ext_getElem
      · simp
      · intro k hk hk'
        rw [List.length_map] at hk'
        have hload : M.load8 g.heap.mem (x.buff + BitVec.ofNat 32 k) = .ok chars[k] :=
          hshows.data k hk'
        rw [List.getElem_map, List.getElem_map, List.getElem_range, ← haddr, hload]
        rfl

/-- What the operations make of the arrays can be seen in the heap. -/
theorem Follows.shows {r : BufferString} {r' : StdString × TrackedHeap σ}
    (h : Follows M Ok g r t r') (hr : BufferString.Represents t r chars) :
    (r'.1.view M r'.2.heap.mem).Shows chars := by
  rw [h.place]
  exact h.inBlocks.shows hr

/-- A string of earlier arrays can still be seen. -/
theorem Follows.shows_kept {r : BufferString} {r' : StdString × TrackedHeap σ}
    (h : Follows M Ok g r t r') (hs : InBlocks M Ok s g) (hextends : s.Extends t)
    (hstr : BufferString.Represents s str chars) :
    ((str.place g.sizes).view M r'.2.heap.mem).Shows chars := by
  have hshown := h.inBlocks.shows (hstr.mono hextends)
  rwa [BufferString.place, hs.arrayAddr_eq h.isPrefix hstr.live] at hshown

/-- **Substrings in the heap.** With room for its blocks, `substr` makes a string with the
characters of a slice, and the string that it is called on keeps its own. -/
theorem StdString.substr_shows (hM : M.Lawful Ok Err window) (hinv : Inv M Ok g.heap g.sizes)
    {x : StdString} (hx : IsArray g.sizes x.buff x.length)
    (hshows : (x.view M g.heap.mem).Shows chars) (hne : 0 ∉ chars) (hpos : pos.toNat ≤ chars.length)
    (hcount : count = StdString.npos ∨ pos.toNat + count.toNat < 2 ^ 32) {slice : List Byte}
    (hslice : slice = chars.extract pos.toNat (min (pos.toNat + count.toNat) chars.length))
    (hroom : heapBytes g.sizes + BufferString.arrayBytes [slice.length + 1, slice.length] ≤
      0x10000000) :
    Outcome Err (fun r => Inv M Ok r.2.heap r.2.sizes ∧
      (r.1.view M r.2.heap.mem).Shows slice ∧ (x.view M r.2.heap.mem).Shows chars)
      (StdString.substr M g x pos count) := by
  have hblocks := heapArrays_inBlocks hinv
  obtain ⟨str, rfl, hstr⟩ := exists_represents hx hshows
  rw [← sizes_heapArrays (M := M)] at hroom
  obtain ⟨r, t, hrun, hmade, hr⟩ :=
    (BufferString.substr_slice hblocks.inHeap hstr hne hpos hcount hslice).exists_ok hroom
  refine (hblocks.substr hM hstr.live hrun).mono fun r' h => ?_
  exact ⟨h.inBlocks.inv, h.shows hr, h.shows_kept hblocks hmade.isExtension hstr⟩

/-- **Appending in the heap.** With room for its block, `operator+=` makes the characters of one
string and then those of the other. -/
theorem StdString.append_shows (hM : M.Lawful Ok Err window) (hinv : Inv M Ok g.heap g.sizes)
    {x y : StdString} (hx : IsArray g.sizes x.buff x.length)
    (hy : IsArray g.sizes y.buff y.length) (hxshows : (x.view M g.heap.mem).Shows chars)
    (hyshows : (y.view M g.heap.mem).Shows chars')
    (hroom : heapBytes g.sizes + BufferString.arrayBytes [chars.length + chars'.length] ≤
      0x10000000) :
    Outcome Err (fun r => Inv M Ok r.2.heap r.2.sizes ∧
      (r.1.view M r.2.heap.mem).Shows (chars ++ chars') ∧
      (y.view M r.2.heap.mem).Shows chars') (StdString.append M g x y) := by
  have hblocks := heapArrays_inBlocks hinv
  obtain ⟨str, rfl, hstr⟩ := exists_represents hx hxshows
  obtain ⟨s2, rfl, hs2⟩ := exists_represents hy hyshows
  have hle := hstr.length_le hblocks.inHeap
  have hle' := hs2.length_le hblocks.inHeap
  rw [← sizes_heapArrays (M := M)] at hroom
  obtain ⟨r, t, hrun, hmade, hr⟩ :=
    (BufferString.append_spec hblocks.inHeap hstr hs2 (by omega)).exists_ok hroom
  refine (hblocks.append hM hstr.live hs2.live hrun).mono fun r' h => ?_
  exact ⟨h.inBlocks.inv, h.shows hr, h.shows_kept hblocks hmade.isExtension hs2⟩

end Muk
