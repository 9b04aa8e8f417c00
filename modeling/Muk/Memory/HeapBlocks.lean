import Muk.Memory.Heap

/-!
# What one call of `vmalloc` does

The state of the heap is described in three layers: the region of mapped pages,
zero above the part in use; the headers of the blocks; and the static variables.
Each function of the heap has one lemma that says what it does to this
description, over any lawful memory.
-/

namespace Muk

namespace Heap

variable {σ : Type} {M : PagedMemory σ Fault} {Ok : σ → Prop} {Err : Fault → Prop}
  {h : Heap σ} {s : σ} {used : ℕ} {sizes : List ℕ}

/-- The pages up to `kheap_top` are mapped, and zero above the first `used` bytes. -/
structure Region (M : PagedMemory σ Fault) (Ok : σ → Prop) (h : Heap σ) (used : ℕ) : Prop where
  ok : Ok h.mem
  top_aligned : h.kheapTop.toNat % 4096 = 0
  used_le : 0xE0000000 + used ≤ h.kheapTop.toNat
  top_le : h.kheapTop.toNat ≤ 0xF0000000
  mapped : ∀ x ∈ window, x.toNat < h.kheapTop.toNat → ∃ b, M.load8 h.mem x = .ok b
  fresh : ∀ x ∈ window, 0xE0000000 + used ≤ x.toNat → x.toNat < h.kheapTop.toNat →
    M.load8 h.mem x = .ok 0

/-! ## Mapping pages -/

/-- Mapping a page and clearing it: the page is zero, and every byte outside it that
was accessible is unchanged. -/
theorem mapPage_memset (hM : M.Lawful Ok Err window) (hok : Ok s) (va : Word)
    (halign : va.toNat % 4096 = 0) (hva : va ∈ window) :
    Outcome Err (fun s' => Ok s' ∧
        (∀ x ∈ window, x.toNat / 4096 = va.toNat / 4096 → M.load8 s' x = .ok 0) ∧
        (∀ x ∈ window, x.toNat / 4096 ≠ va.toNat / 4096 → ∀ b, M.load8 s x = .ok b →
          M.load8 s' x = .ok b))
      (M.mapPage s va >>= fun t => M.memset t va 0 4096) := by
  refine (hM.mapPage hok hva).bind fun t ⟨htok, hpage, hkeep⟩ => ?_
  rw [mem_window] at hva
  have hnear (x : Word) (hx : (x - va).toNat < 4096) :
      x ∈ window ∧ x.toNat / 4096 = va.toNat / 4096 := by
    have hxnat : x.toNat = va.toNat + (x - va).toNat := by bv_omega
    rw [mem_window]
    omega
  obtain ⟨s', hrun, hok', hload⟩ := hM.storeBytes htok va (fun _ => 0) 4096 (by omega)
    (fun x hx => (hnear x hx).1) (fun x hx => hpage x (hnear x hx).1 (hnear x hx).2)
  refine .of_eq_ok hrun ⟨hok', fun x hx hsame => ?_, fun x hx hother b hb => ?_⟩
  · have hdist : (x - va).toNat < 4096 := by bv_omega
    rw [hload x hx, if_pos hdist]
  · have hdist : ¬ (x - va).toNat < 4096 := fun hlt => hother (hnear x hlt).2
    rw [hload x hx, if_neg hdist, hkeep x hx b hb]

/-- The region with one page more, which is zero. -/
theorem Region.grow (hregion : Region M Ok h used) {s' : σ} (hok : Ok s')
    (hroom : h.kheapTop.toNat + 4096 ≤ 0xF0000000)
    (hzero : ∀ x ∈ window, x.toNat / 4096 = h.kheapTop.toNat / 4096 → M.load8 s' x = .ok 0)
    (hsame : ∀ x ∈ window, x.toNat < h.kheapTop.toNat → M.load8 s' x = M.load8 h.mem x) :
    Region M Ok { h with mem := s', kheapTop := h.kheapTop + 4096#32 } used := by
  have hused := hregion.used_le
  have halign := hregion.top_aligned
  have htop : (h.kheapTop + 4096#32).toNat = h.kheapTop.toNat + 4096 := by
    rw [BitVec.toNat_add, BitVec.toNat_ofNat]
    omega
  refine ⟨hok, ?_, ?_, ?_, fun x hx hlow => ?_, fun x hx habove hlow => ?_⟩
  · simp only [htop]
    omega
  · simp only [htop]
    omega
  · simp only [htop]
    exact hroom
  · rw [htop] at hlow
    by_cases hold : x.toNat < h.kheapTop.toNat
    · rw [hsame x hx hold]
      exact hregion.mapped x hx hold
    · exact ⟨0, hzero x hx (by omega)⟩
  · rw [htop] at hlow
    by_cases hold : x.toNat < h.kheapTop.toNat
    · rw [hsame x hx hold]
      exact hregion.fresh x hx habove hold
    · exact hzero x hx (by omega)

/-- The bytes of a range below `kheap_top` are accessible. -/
theorem Region.accessible (hregion : Region M Ok h used) {a : Word} {n : ℕ}
    (hlow : 0xE0000000 ≤ a.toNat) (hhigh : a.toNat + n ≤ h.kheapTop.toNat) (x : Word)
    (hx : (x - a).toNat < n) : x ∈ window ∧ ∃ b, M.load8 h.mem x = .ok b := by
  have htop := hregion.top_le
  have hdist : x.toNat = a.toNat + (x - a).toNat := by bv_omega
  have hin : x ∈ window := mem_window.mpr ⟨by omega, by omega⟩
  exact ⟨hin, hregion.mapped x hin (by omega)⟩

/-- `map_heap_pages` raises `kheap_top` to the end asked for, and keeps every byte
below the old one. -/
theorem mapHeapPages_spec (hM : M.Lawful Ok Err window) (endAddr : Word)
    (hend : endAddr.toNat ≤ 0xF0000000) (fuel : ℕ) (hregion : Region M Ok h used)
    (hfuel : 0xF0000000 < h.kheapTop.toNat + 4096 * fuel) :
    Outcome Err (fun h' => Region M Ok h' used ∧ endAddr.toNat ≤ h'.kheapTop.toNat ∧
        h'.kheapStart = h.kheapStart ∧
        ∀ x ∈ window, x.toNat < h.kheapTop.toNat → M.load8 h'.mem x = M.load8 h.mem x)
      (mapHeapPages M h endAddr fuel) := by
  induction fuel generalizing h with
  | zero =>
    have := hregion.top_le
    omega
  | succ fuel ih =>
    by_cases hlt : h.kheapTop < endAddr
    · have hlt' : h.kheapTop.toNat < endAddr.toNat := hlt
      have hused := hregion.used_le
      have halign := hregion.top_aligned
      have hstep := mapPage_memset hM hregion.ok _ halign (mem_window.mpr ⟨by omega, by omega⟩)
      have hrun : mapHeapPages M h endAddr (fuel + 1) =
          (M.mapPage h.mem h.kheapTop >>= fun t => M.memset t h.kheapTop 0 4096) >>= fun s =>
            mapHeapPages M { h with mem := s, kheapTop := h.kheapTop + 4096#32 } endAddr fuel := by
        rw [mapHeapPages, if_pos hlt, bind_assoc]
      rw [hrun]
      refine hstep.bind fun s' ⟨hok', hzero, hkeep⟩ => ?_
      have htop : (h.kheapTop + 4096#32).toNat = h.kheapTop.toNat + 4096 := by
        rw [BitVec.toNat_add, BitVec.toNat_ofNat]
        omega
      have hbelow (x : Word) (hx : x ∈ window) (hlow : x.toNat < h.kheapTop.toNat) :
          M.load8 s' x = M.load8 h.mem x := by
        obtain ⟨b, hb⟩ := hregion.mapped x hx hlow
        rw [hb, hkeep x hx (by omega) b hb]
      have hregion' := hregion.grow hok' (by omega) hzero hbelow
      refine (ih hregion' (by simp only [htop]; omega)).mono
        fun h' ⟨hregion'', hend', hstart, hsame⟩ => ⟨hregion'', hend', hstart, fun x hx hlow => ?_⟩
      rw [hsame x hx (by simp only [htop]; omega)]
      exact hbelow x hx hlow
    · have hle : endAddr.toNat ≤ h.kheapTop.toNat := by
        rw [BitVec.lt_def] at hlt
        omega
      have hrun : mapHeapPages M h endAddr (fuel + 1) = .ok h := by rw [mapHeapPages, if_neg hlt]
      exact .of_eq_ok hrun ⟨hregion, hle, rfl, fun _ _ _ => rfl⟩

/-! ## Headers -/

/-- The header of a block in memory. -/
structure Header (M : PagedMemory σ Fault) (s : σ) (block size next prev : Word) : Prop where
  size : M.Holds32 s block (sizeWord size)
  next : M.Holds32 s (block + 4#32) next
  prev : M.Holds32 s (block + 8#32) prev

/-- A header depends on its twelve bytes only. -/
theorem Header.congr {s' : σ} {block size next prev : Word} (hd : Header M s block size next prev)
    (hsame : ∀ x, (x - block).toNat < 12 → M.load8 s' x = M.load8 s x) :
    Header M s' block size next prev :=
  ⟨hd.size.congr fun x hx => hsame x (by omega), hd.next.congr fun x hx => hsame x (by bv_omega),
    hd.prev.congr fun x hx => hsame x (by bv_omega)⟩

/-- Setting `next` leaves the rest of a header alone. -/
theorem Header.setNext {s' : σ} {block size next next' prev : Word}
    (hd : Header M s block size next prev) (hnext : M.Holds32 s' (block + 4#32) next')
    (hsame : ∀ x, (x - block).toNat < 12 → 4 ≤ (x - (block + 4#32)).toNat →
      M.load8 s' x = M.load8 s x) : Header M s' block size next' prev :=
  ⟨hd.size.congr fun x hx => hsame x (by omega) (by bv_omega), hnext,
    hd.prev.congr fun x hx => hsame x (by bv_omega) (by bv_omega)⟩

/-- `size` is a field of 31 bits. -/
theorem sizeWord_shift {size : Word} (h : size.toNat < 2 ^ 31) : sizeWord size >>> 1 = size := by
  apply BitVec.eq_of_getLsbD_eq
  intro i hi
  have htop : size.getLsbD 31 = false := by
    rw [BitVec.getLsbD, Nat.testBit_eq_decide_div_mod_eq, decide_eq_false_iff_not]
    omega
  by_cases h31 : i = 31
  · simpa [h31, BitVec.getLsbD_eq_getElem] using htop
  · have hlt : i + 1 < 32 := by omega
    simp [sizeWord, Nat.add_comm 1 i, hlt, BitVec.getLsbD_eq_getElem hi]

/-- The size of a block is read from its header. -/
theorem Header.blockSize {block size next prev : Word} (hd : Header M s block size next prev)
    (h : size.toNat < 2 ^ 31) : blockSize M s block = .ok size := by
  simp only [Heap.blockSize, hd.size.load32, bind, Except.bind, sizeWord_shift h]

/-- The constructor of `BlockHeader` writes its header and nothing else. -/
theorem newBlockHeader_spec (hM : M.Lawful Ok Err window) (hok : Ok s) (block size prev : Word)
    (hwindow : ∀ x : Word, (x - block).toNat < 12 → x ∈ window)
    (hmapped : ∀ x : Word, (x - block).toNat < 12 → ∃ b, M.load8 s x = .ok b) :
    ∃ s', newBlockHeader M s block size prev = .ok s' ∧ Ok s' ∧
      Header M s' block size 0 prev ∧
      (∀ x ∈ window, 12 ≤ (x - block).toNat → M.load8 s' x = M.load8 s x) ∧
      ∀ x ∈ window, (∃ b, M.load8 s x = .ok b) → ∃ b, M.load8 s' x = .ok b := by
  obtain ⟨s1, hrun1, hok1, hsize, hsame1⟩ := hM.store32 hok block (sizeWord size)
    (fun x hx => hwindow x (by omega)) (fun x hx => hmapped x (by omega))
  have hmapped1 (x : Word) (hx : (x - block).toNat < 12) : ∃ b, M.load8 s1 x = .ok b :=
    hsize.accessible (hsame1 x (hwindow x hx)) (hmapped x hx)
  obtain ⟨s2, hrun2, hok2, hnext, hsame2⟩ := hM.store32 hok1 (block + 4#32) 0
    (fun x hx => hwindow x (by bv_omega)) (fun x hx => hmapped1 x (by bv_omega))
  have hmapped2 (x : Word) (hx : (x - block).toNat < 12) : ∃ b, M.load8 s2 x = .ok b :=
    hnext.accessible (hsame2 x (hwindow x hx)) (hmapped1 x hx)
  obtain ⟨s3, hrun3, hok3, hprev, hsame3⟩ := hM.store32 hok2 (block + 8#32) prev
    (fun x hx => hwindow x (by bv_omega)) (fun x hx => hmapped2 x (by bv_omega))
  refine ⟨s3, ?_, hok3, ⟨?_, ?_, hprev⟩, fun x hx hfar => ?_, fun x hx hb => ?_⟩
  · simp only [newBlockHeader, hrun1, hrun2, hrun3, bind, Except.bind]
  · apply hsize.congr
    intro x hx
    have hin := hwindow x (by omega)
    rw [hsame3 x hin (by bv_omega), hsame2 x hin (by bv_omega)]
  · exact hnext.congr fun x hx => hsame3 x (hwindow x (by bv_omega)) (by bv_omega)
  · rw [hsame3 x hx (by bv_omega), hsame2 x hx (by bv_omega), hsame1 x hx (by omega)]
  · exact hprev.accessible (hsame3 x hx)
      (hnext.accessible (hsame2 x hx) (hsize.accessible (hsame1 x hx) hb))

/-- A header is written, and the block is linked to one that it lies behind, or to itself. -/
theorem linkBlock_spec (hM : M.Lawful Ok Err window) (hok : Ok s) {block found : Word} (size : Word)
    (hplace : found = block ∨ found.toNat + 12 ≤ block.toNat)
    (hheader : ∀ x : Word, (x - block).toNat < 12 → x ∈ window ∧ ∃ b, M.load8 s x = .ok b)
    (hlink : ∀ x : Word, (x - (found + 4#32)).toNat < 4 → x ∈ window ∧ ∃ b, M.load8 s x = .ok b) :
    ∃ s1 s2, newBlockHeader M s block size found = .ok s1 ∧
      M.store32 s1 (found + 4#32) block = .ok s2 ∧ Ok s2 ∧
      Header M s2 block size (if found = block then block else 0) found ∧
      M.Holds32 s2 (found + 4#32) block ∧
      (∀ x ∈ window, 12 ≤ (x - block).toNat → 4 ≤ (x - (found + 4#32)).toNat →
        M.load8 s2 x = M.load8 s x) ∧
      ∀ x ∈ window, (∃ b, M.load8 s x = .ok b) → ∃ b, M.load8 s2 x = .ok b := by
  obtain ⟨s1, hrun1, hok1, hheader1, hsame1, hmapped1⟩ := newBlockHeader_spec hM hok block size
    found (fun x hx => (hheader x hx).1) fun x hx => (hheader x hx).2
  obtain ⟨s2, hrun2, hok2, hlink2, hsame2⟩ := hM.store32 hok1 (found + 4#32) block
    (fun x hx => (hlink x hx).1) fun x hx => hmapped1 x (hlink x hx).1 (hlink x hx).2
  refine ⟨s1, s2, hrun1, hrun2, hok2, ?_, hlink2, fun x hx hfar hfar' => ?_, fun x hx hb => ?_⟩
  · by_cases heq : found = block
    · subst heq
      rw [if_pos rfl]
      exact hheader1.setNext hlink2 fun x hx hfar => hsame2 x (hheader x hx).1 hfar
    · rw [if_neg heq]
      refine hheader1.congr fun x hx => hsame2 x (hheader x hx).1 ?_
      have hbehind := hplace.resolve_left heq
      have hwindow := mem_window.mp (hheader x hx).1
      bv_omega
  · rw [hsame2 x hx hfar', hsame1 x hx hfar]
  · exact hlink2.accessible (hsame2 x hx) (hmapped1 x hx hb)

/-! ## Appending a block -/

/-- The address at a distance from the start of the heap. -/
theorem toNat_heapAddr {offset : ℕ} (h : offset ≤ 0x10000000) :
    (kHeapStart + BitVec.ofNat 32 offset).toNat = 0xE0000000 + offset := by
  have hstart : kHeapStart.toNat = 0xE0000000 := rfl
  rw [BitVec.toNat_add, BitVec.toNat_ofNat, hstart]
  omega

/-- What `appendBlock` leaves behind, after it put a block of `size` bytes above the
`used` ones and linked it to the block `found`. -/
structure Appended (M : PagedMemory σ Fault) (Ok : σ → Prop) (h : Heap σ) (used : ℕ)
    (found size : Word) (addr : Word) (h' : Heap σ) : Prop where
  addr_eq : addr = kHeapStart + BitVec.ofNat 32 used + 12#32
  region : Region M Ok h' (used + size.toNat)
  start : h'.kheapStart = h.kheapStart
  interrupts : h'.interrupts = true
  header : Header M h'.mem (kHeapStart + BitVec.ofNat 32 used) size
    (if used = 0 then kHeapStart else 0) found
  link : M.Holds32 h'.mem (found + 4#32) (kHeapStart + BitVec.ofNat 32 used)
  same : ∀ x ∈ window, x.toNat < 0xE0000000 + used → 4 ≤ (x - (found + 4#32)).toNat →
    x.toNat < h.kheapTop.toNat → M.load8 h'.mem x = M.load8 h.mem x
  zero : ∀ x ∈ window, 0xE0000000 + used + 12 ≤ x.toNat →
    x.toNat < 0xE0000000 + used + size.toNat → M.load8 h'.mem x = .ok 0

/-- Appending a block after the block `found`, which lies in the part in use, or at
the start of a heap of which nothing is in use. -/
theorem appendBlock_spec (hM : M.Lawful Ok Err window) (offset : ℕ) {found foundSize : Word}
    (size : Word)
    (hregion : Region M Ok h used) (hfound : found = kHeapStart + BitVec.ofNat 32 offset)
    (hplace : offset + 12 ≤ used ∨ used = 0 ∧ offset = 0)
    (hsize : blockSize M h.mem found = .ok foundSize)
    (hend : found + foundSize = kHeapStart + BitVec.ofNat 32 used)
    (hmin : 12 ≤ size.toNat) (hfit : used + size.toNat ≤ 0x10000000) :
    Outcome Err (fun r => Appended M Ok h used found size r.1 r.2)
      (appendBlock M h found size) := by
  have hblock := toNat_heapAddr (show used ≤ 0x10000000 by omega)
  have hfoundNat := toNat_heapAddr (show offset ≤ 0x10000000 by omega)
  rw [← hfound] at hfoundNat
  have hendNat : (kHeapStart + BitVec.ofNat 32 used + size).toNat =
      0xE0000000 + used + size.toNat := by
    rw [BitVec.toNat_add, hblock]
    omega
  have htop := hregion.used_le
  have htop' := hregion.top_le
  have hmapPages := mapHeapPages_spec hM (kHeapStart + BitVec.ofNat 32 used + size) (by omega)
    (2 ^ 20 + 1) hregion (by omega)
  simp only [appendBlock, hsize, bind, Except.bind, hend]
  refine hmapPages.bind fun h1 ⟨hregion1, hroom, hstart1, hsame1⟩ => ?_
  generalize hb : kHeapStart + BitVec.ofNat 32 used = block at *
  rw [hendNat] at hroom
  have hbounds := hregion1.top_le
  have hfoundNe : found ≠ 0 := by
    intro hzero
    have hzeroNat : (0 : Word).toNat = 0 := rfl
    rw [hzero, hzeroNat] at hfoundNat
    omega
  have hself : found = block ↔ used = 0 := by
    rw [← BitVec.toNat_inj, hfoundNat, hblock]
    omega
  have hheader := hregion1.accessible (a := block) (n := 12) (by omega) (by omega)
  have hlinkNat : (found + 4#32).toNat = found.toNat + 4 := by
    rw [BitVec.toNat_add, BitVec.toNat_ofNat]
    omega
  have hlink := hregion1.accessible (a := found + 4#32) (n := 4) (by omega) (by omega)
  obtain ⟨s2, s3, hrun2, hrun3, hok3, hheader3, hlink3, hsame, hmapped3⟩ :=
    linkBlock_spec hM hregion1.ok size
      (hplace.symm.imp (fun h => hself.mpr h.1) fun h => by omega) hheader hlink
  have hfar (x : Word) (hx : 0xE0000000 + used + 12 ≤ x.toNat) :
      12 ≤ (x - block).toNat ∧ 4 ≤ (x - (found + 4#32)).toNat := by
    constructor <;> bv_omega
  simp only [hrun2, if_pos hfoundNe, hrun3, outcome_ok]
  refine ⟨by rw [hb], ?_, hstart1, rfl, ?_, by rw [hb]; exact hlink3, fun x hx hbelow hother hlow =>
    ?_, ?_⟩
  · refine ⟨hok3, hregion1.top_aligned, by simp only; omega, hregion1.top_le,
      fun x hx hlow => ?_, fun x hx habove hlow => ?_⟩
    · exact hmapped3 x hx (hregion1.mapped x hx hlow)
    · obtain ⟨hf, hf'⟩ := hfar x (by omega)
      rw [hsame x hx hf hf', hregion1.fresh x hx (by omega) hlow]
  · rw [hb]
    by_cases hused : used = 0
    · have hstart : block = kHeapStart := by rw [← hb, hused, BitVec.add_zero]
      rw [if_pos (hself.mpr hused), hstart] at hheader3
      rwa [if_pos hused, hstart]
    · rw [if_neg fun h => hused (hself.mp h)] at hheader3
      rwa [if_neg hused]
  · rw [hsame x hx (by bv_omega) hother, hsame1 x hx hlow]
  · intro x hx habove hbelow
    obtain ⟨hf, hf'⟩ := hfar x habove
    rw [hsame x hx hf hf', hregion1.fresh x hx (by omega) (by omega)]

end Heap

end Muk
