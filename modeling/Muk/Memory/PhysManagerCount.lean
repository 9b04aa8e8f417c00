import Muk.Memory.PhysManagerRuns
import Mathlib.Order.CompletePartialOrder

/-!
# The count of free pages

`free_pages` goes up and down with every call of `PageFree` and `PageTaken`, whether or not the
bit of the page changes. What it has too much, as a 32-bit number, changes where a page is freed
that was free or taken that was not.
-/

namespace Muk

namespace BitmapAllocator

variable {bitmapSize : ℕ} {a a' : BitmapAllocator bitmapSize} {p : ℕ}

/-- There are `n` numbers below `n`. -/
theorem ncard_Iio (n : ℕ) : (Set.Iio n).ncard = n := by
  rw [← Finset.coe_range, Set.ncard_coe_finset, Finset.card_range]

/-- The difference of `free_pages` and the number of set bits. -/
noncomputable def surplus (a : BitmapAllocator bitmapSize) : Word :=
  a.freePages - BitVec.ofNat 32 a.free.ncard

/-- At most as many pages are free as the bitmap has bits. -/
theorem ncard_free_le (a : BitmapAllocator bitmapSize) : a.free.ncard ≤ 32 * bitmapSize := by
  have hle := Set.ncard_le_ncard (s := a.free) (t := Set.Iio (32 * bitmapSize))
    (fun _ hp => lt_of_mem_free hp) (Set.finite_Iio _)
  rwa [ncard_Iio] at hle

/-- The count is right when there is no surplus. -/
theorem freePages_eq_iff (hsize : bitmapSize < 2 ^ 27) :
    a.freePages.toNat = a.free.ncard ↔ a.surplus = 0#32 := by
  have hle := a.ncard_free_le
  have hmod : a.free.ncard % 2 ^ 32 = a.free.ncard := Nat.mod_eq_of_lt (by omega)
  rw [surplus, BitVec.sub_eq_iff_eq_add, BitVec.zero_add, ← BitVec.toNat_inj, BitVec.toNat_ofNat,
    hmod]

/-- Setting a word leaves the counter of free pages as it is. -/
theorem setWord_freePages {chunk : ℕ} {f : Word → Word} (h : a.setWord chunk f = .ok a') :
    a'.freePages = a.freePages := by
  rw [setWord] at h
  split_ifs at h
  obtain rfl := Except.ok.inj h
  rfl

/-- Freeing a page that was not free. -/
theorem pageFree_surplus (hp : p < 32 * bitmapSize) (hword : p < 2 ^ 32) (hnot : p ∉ a.free)
    (h : a.pageFree (BitVec.ofNat 32 p) = .ok a') : a'.surplus = a.surplus := by
  obtain ⟨b, hcall, hfree⟩ := a.pageFree_spec hp hword
  obtain rfl : a' = b := Except.ok.inj (h.symm.trans hcall)
  obtain ⟨t, hset, hresult⟩ := bind_eq_ok.mp h
  obtain rfl := Except.ok.inj hresult
  have hcard := Set.ncard_insert_of_notMem hnot a.finite_free
  rw [← hfree] at hcard
  rw [surplus, surplus, hcard, setWord_freePages hset]
  change a.freePages + 1#32 - _ = _
  rw [BitVec.ofNat_add]
  generalize BitVec.ofNat 32 a.free.ncard = count
  bv_omega

/-- Taking a page removes it from the free ones, and makes the counter one too small if the page was
not free. -/
theorem pageTaken_surplus (hp : p < 32 * bitmapSize) (hword : p < 2 ^ 32)
    (h : a.pageTaken (BitVec.ofNat 32 p) = .ok a') :
    a'.free = a.free \ {p} ∧ (p ∈ a.free → a'.surplus = a.surplus) ∧
      (p ∉ a.free → a'.surplus = a.surplus - 1#32) := by
  obtain ⟨b, hcall, hfree⟩ := a.pageTaken_spec hp hword
  obtain rfl : a' = b := Except.ok.inj (h.symm.trans hcall)
  obtain ⟨t, hset, hresult⟩ := bind_eq_ok.mp h
  obtain rfl := Except.ok.inj hresult
  refine ⟨hfree, fun hmem => ?_, fun hnot => ?_⟩
  · have hcard := Set.ncard_sdiff_singleton_add_one hmem a.finite_free
    rw [← hfree] at hcard
    rw [surplus, surplus, ← hcard, setWord_freePages hset]
    change a.freePages - 1#32 - _ = _
    rw [BitVec.ofNat_add]
    generalize BitVec.ofNat 32 _ = count
    bv_omega
  · rw [Set.sdiff_singleton_eq_self hnot] at hfree
    rw [surplus, surplus, hfree, setWord_freePages hset]
    change a.freePages - 1#32 - _ = _
    generalize BitVec.ofNat 32 a.free.ncard = count
    bv_omega

/-- `AllocatePage` takes a page that is free, or none. -/
theorem allocatePage_surplus (hsize : bitmapSize ≤ 2 ^ 27) {r : Word}
    (h : a.allocatePage = .ok (r, a')) : a'.surplus = a.surplus := by
  cases hfirst : a.firstPage with
  | none =>
    simp only [allocatePage, hfirst, Except.ok.injEq, Prod.mk.injEq] at h
    rw [h.2]
  | some q =>
    have hq := (firstPage_eq_some hfirst).1
    have hlt := lt_of_mem_free hq
    simp only [allocatePage, hfirst] at h
    obtain ⟨t, htaken, hresult⟩ := bind_eq_ok.mp h
    obtain ⟨-, rfl⟩ := Prod.mk.inj (Except.ok.inj hresult)
    exact (pageTaken_surplus hlt (by omega) htaken).2.1 hq

/-- A run of calls leaves the surplus as it is. -/
theorem allocateRun_surplus {a a' : BitmapAllocator 4096} {k : ℕ} {results : List Word}
    (h : a.allocateRun k = .ok (results, a')) : a'.surplus = a.surplus := by
  induction k generalizing results a' with
  | zero =>
    obtain ⟨-, rfl⟩ := Prod.mk.inj (Except.ok.inj h)
    rfl
  | succ k ih =>
    obtain ⟨⟨before, b⟩, hrun, hrest⟩ := bind_eq_ok.mp h
    obtain ⟨⟨page, c⟩, hcall, hresult⟩ := bind_eq_ok.mp hrest
    obtain ⟨-, rfl⟩ := Prod.mk.inj (Except.ok.inj hresult)
    rw [allocatePage_surplus (by omega) hcall, ih hrun]

/-! ## The constructor -/

/-- Freeing the pages of an entry, none of which was free. -/
theorem freeEntry_surplus {a a' : BitmapAllocator 4096} {e : MemoryMap} (he : EntryFits e)
    (hnot : ∀ p ∈ freedPages e, p ∉ a.free) (h : freeEntry e a = .ok a') :
    a'.surplus = a.surplus := by
  by_cases htype : e.type = multibootMemoryAvailable
  · simp only [freeEntry, if_pos htype, toNat_page] at h
    generalize hfirst : e.baseAddrLow.toNat / 4096 = first at h
    generalize hend : (e.baseAddrLow + e.lengthLow).toNat / 4096 = endPg at h
    have hpages {p : ℕ} (hle : first ≤ p) (hlt : p < endPg) : p ∈ freedPages e :=
      ⟨htype, hfirst ▸ hle, hend ▸ hlt⟩
    obtain ⟨b, hrun, -, hb⟩ : ∃ b : BitmapAllocator 4096,
        forLoop (fun pgIndex a => a.pageFree (BitVec.ofNat 32 pgIndex)) first (endPg - first) a =
          .ok b ∧
        b.free = a.free ∪ Set.Ico first (first + (endPg - first)) ∧ b.surplus = a.surplus := by
      refine forLoop_invariant (fun i (b : BitmapAllocator 4096) =>
        b.free = a.free ∪ Set.Ico first (first + i) ∧ b.surplus = a.surplus) (by simp) ?_
      rintro i hi b ⟨hfree, hsurplus⟩
      have hpage := hpages (Nat.le_add_right first i) (by omega)
      have hfits := he _ hpage
      obtain ⟨b', hcall, hfree'⟩ := b.pageFree_spec hfits (by omega)
      refine ⟨b', hcall, ?_, ?_⟩
      · rw [hfree', hfree, ← Nat.add_assoc]
        ext x
        simp only [Set.mem_insert_iff, Set.mem_union, Set.mem_Ico]
        grind
      · refine (pageFree_surplus hfits (by omega) ?_ hcall).trans hsurplus
        rw [hfree, Set.mem_union, Set.mem_Ico, not_or]
        exact ⟨hnot _ hpage, by omega⟩
    obtain rfl : a' = b := Except.ok.inj (h.symm.trans hrun)
    exact hb
  · rw [freeEntry, if_neg htype] at h
    rw [Except.ok.inj h]

/-- Taking a range of pages that starts at page zero makes the count too small by those that
were not free. -/
theorem pageTaken_loop_surplus (a : BitmapAllocator 4096) (count : ℕ) (hend : count ≤ 32 * 4096) :
    ∃ a', forLoop (fun pgIndex a => a.pageTaken (BitVec.ofNat 32 pgIndex)) 0 count a = .ok a' ∧
      a'.free = a.free \ Set.Iio count ∧
      a'.surplus = a.surplus - BitVec.ofNat 32 (Set.Iio count \ a.free).ncard := by
  refine forLoop_invariant (fun i (b : BitmapAllocator 4096) => b.free = a.free \ Set.Iio i ∧
    b.surplus = a.surplus - BitVec.ofNat 32 (Set.Iio i \ a.free).ncard) (by simp [Set.Iio]) ?_
  rintro i hi b ⟨hfree, hsurplus⟩
  rw [Nat.zero_add]
  obtain ⟨b', hcall, hfree'⟩ := b.pageTaken_spec (show i < 32 * 4096 by omega) (by omega)
  obtain ⟨-, hin, hout⟩ := pageTaken_surplus (by omega) (by omega) hcall
  have hmem : i ∈ b.free ↔ i ∈ a.free := by simp [hfree]
  refine ⟨b', hcall, ?_, ?_⟩
  · rw [hfree', hfree]
    ext x
    simp only [Set.mem_sdiff, Set.mem_Iio, Set.mem_singleton_iff]
    grind
  · by_cases hi' : i ∈ a.free
    · have hsame : Set.Iio (i + 1) \ a.free = Set.Iio i \ a.free := by
        ext x
        simp only [Set.mem_sdiff, Set.mem_Iio]
        grind
      rw [hin (hmem.mpr hi'), hsurplus, hsame]
    · have hinsert : Set.Iio (i + 1) \ a.free = insert i (Set.Iio i \ a.free) := by
        ext x
        simp only [Set.mem_sdiff, Set.mem_Iio, Set.mem_insert_iff]
        grind
      have hnot : i ∉ Set.Iio i \ a.free := fun h => absurd h.1 (Nat.lt_irrefl i)
      rw [hout (hmem.not.mpr hi'), hsurplus, hinsert,
        Set.ncard_insert_of_notMem hnot ((Set.finite_Iio i).sdiff), BitVec.ofNat_add]
      generalize BitVec.ofNat 32 _ = count
      bv_omega

/-- The bytes that an entry describes. -/
def entryBytes (e : MemoryMap) : Set ℕ := Set.Ico e.base (e.base + e.length)

/-- Entries without a common byte have no common page. -/
theorem disjoint_entryPages {e e' : MemoryMap} (h : Disjoint (entryBytes e) (entryBytes e')) :
    Disjoint (entryPages e) (entryPages e') := by
  rw [Set.disjoint_left] at h ⊢
  rintro p ⟨-, hfirst, hend⟩ ⟨-, hfirst', hend'⟩
  -- The later one of the two bases is a byte of both entries.
  rcases Nat.le_total e.base e'.base with hle | hle
  · exact h (a := e'.base) ⟨hle, by omega⟩ ⟨Nat.le_refl _, by omega⟩
  · exact h (a := e.base) ⟨Nat.le_refl _, by omega⟩ ⟨hle, by omega⟩

/-- The pages of some available entry. -/
def mapPages (mboot : MultibootInfo) : Set ℕ :=
  {p | ∃ index < mboot.mmapEntries, p ∈ entryPages (mboot.mmap index)}

/-- The first loop of the constructor counts each page of the memory map once. -/
theorem freeEntries_surplus {mboot : MultibootInfo} {start : BitmapAllocator 4096}
    (hempty : start.free = ∅) (hentries : ∀ index < mboot.mmapEntries, EntryLow (mboot.mmap index))
    (hdisjoint : ∀ i j, i < j → j < mboot.mmapEntries →
      Disjoint (entryBytes (mboot.mmap i)) (entryBytes (mboot.mmap j))) :
    ∃ filled : BitmapAllocator 4096,
      forLoop (fun index a => freeEntry (mboot.mmap index) a) 0 mboot.mmapEntries start =
        .ok filled ∧
      filled.free = mapPages mboot ∧ filled.surplus = start.surplus := by
  refine forLoop_invariant (fun i (b : BitmapAllocator 4096) =>
    b.free = {p | ∃ index < i, p ∈ entryPages (mboot.mmap index)} ∧ b.surplus = start.surplus)
    ⟨by simp [hempty], rfl⟩ ?_
  rintro i hi b ⟨hfree, hb⟩
  rw [Nat.zero_add]
  have hlow := hentries i hi
  obtain ⟨b', hcall, hfree'⟩ := b.freeEntry_spec hlow.fits
  rw [hlow.freedPages] at hfree'
  refine ⟨b', hcall, ?_, ?_⟩
  · rw [hfree', hfree]
    ext p
    simp only [Set.mem_union, Set.mem_ofPred_eq, Nat.lt_succ_iff_lt_or_eq]
    grind
  · refine (freeEntry_surplus hlow.fits (fun p hp hmem => ?_) hcall).trans hb
    rw [hfree] at hmem
    rw [hlow.freedPages] at hp
    obtain ⟨index, hindex, hp'⟩ := hmem
    exact Set.disjoint_left.mp (disjoint_entryPages (hdisjoint index i hindex hi)) hp' hp

/-- The constructor counts the pages of the kernel that no entry describes as taken. -/
theorem construct_surplus {storage : Vector Word 4096} {mboot : MultibootInfo} {kernelEnd : Word}
    (hstorage : ∀ chunk (h : chunk < 4096), storage[chunk] = 0)
    (hentries : ∀ index < mboot.mmapEntries, EntryLow (mboot.mmap index))
    (hdisjoint : ∀ i j, i < j → j < mboot.mmapEntries →
      Disjoint (entryBytes (mboot.mmap i)) (entryBytes (mboot.mmap j)))
    (hkernel : kernelEnd.toNat < 512 * 2 ^ 20) :
    ∃ a, construct storage mboot kernelEnd = .ok a ∧
      (a.surplus = 0#32 ↔ ∀ p ≤ kernelEnd.toNat / 4096, p ∈ mapPages mboot) := by
  let start : BitmapAllocator 4096 := { freePages := 0, bitmap := storage }
  have hempty : start.free = ∅ := storageFree_zero hstorage
  have hzero : start.surplus = 0#32 := by
    rw [surplus, hempty, Set.ncard_empty]
    exact BitVec.sub_zero _
  obtain ⟨filled, hrun, hfilled, hsurplus⟩ := freeEntries_surplus hempty hentries hdisjoint
  obtain ⟨a, hkernelLoop, -, ha⟩ :=
    filled.pageTaken_loop_surplus (kernelEnd.toNat / 4096 + 1) (by omega)
  refine ⟨a, ?_, ?_⟩
  · change (forLoop _ 0 mboot.mmapEntries start >>= fun a => _) = _
    rw [hrun, ok_bind]
    change forLoop _ 0 _ filled = _
    rw [toNat_kernelPages]
    exact hkernelLoop
  · have hfinite : (Set.Iio (kernelEnd.toNat / 4096 + 1) \ filled.free).Finite :=
      (Set.finite_Iio _).sdiff
    have hle := Set.ncard_le_ncard (s := Set.Iio (kernelEnd.toNat / 4096 + 1) \ filled.free)
      Set.sdiff_subset (Set.finite_Iio _)
    rw [ncard_Iio] at hle
    have hcount : a.surplus = 0#32 ↔
        (Set.Iio (kernelEnd.toNat / 4096 + 1) \ filled.free).ncard = 0 := by
      rw [ha, hsurplus, hzero]
      generalize (Set.Iio (kernelEnd.toNat / 4096 + 1) \ filled.free).ncard = missing at hle
      bv_omega
    rw [hcount, Set.ncard_eq_zero hfinite, Set.sdiff_eq_empty, hfilled]
    exact forall_congr' fun p => imp_congr_left Nat.lt_succ_iff

/-- **When `free_pages` counts the free pages.** After the constructor and any number of calls of
`AllocatePage`, `free_pages` is the number of set bits if and only if every page up to the
kernel's end belongs to an available entry. -/
theorem free_pages_iff {storage : Vector Word 4096} {mboot : MultibootInfo} {kernelEnd : Word}
    (hstorage : ∀ chunk (h : chunk < 4096), storage[chunk] = 0)
    (hentries : ∀ index < mboot.mmapEntries, EntryLow (mboot.mmap index))
    (hdisjoint : ∀ i j, i < j → j < mboot.mmapEntries →
      Disjoint (entryBytes (mboot.mmap i)) (entryBytes (mboot.mmap j)))
    (hkernel : kernelEnd.toNat < 512 * 2 ^ 20) :
    (∃ a, construct storage mboot kernelEnd = .ok a ∧
      ∀ k, ∃ results a', a.allocateRun k = .ok (results, a') ∧ a'.freePages.toNat = a'.free.ncard) ↔
    ∀ p ≤ kernelEnd.toNat / 4096, p ∈ mapPages mboot := by
  obtain ⟨a, hconstruct, ha⟩ := construct_surplus hstorage hentries hdisjoint hkernel
  rw [← ha]
  constructor
  · rintro ⟨b, hconstruct', hruns⟩
    obtain rfl : a = b := Except.ok.inj (hconstruct.symm.trans hconstruct')
    obtain ⟨results, a', hrun, hcount⟩ := hruns 0
    rw [← allocateRun_surplus hrun]
    exact (freePages_eq_iff (by decide)).mp hcount
  · intro hzero
    refine ⟨a, hconstruct, fun k => ?_⟩
    obtain ⟨a', hrun, -⟩ := a.allocateRun_spec k
    refine ⟨_, a', hrun, (freePages_eq_iff (by decide)).mpr ?_⟩
    rw [allocateRun_surplus hrun, hzero]

/-- The memory from page zero to 128 MiB. -/
def wholeMemory : MemoryMap := { lowMemory with baseAddrLow := 0, lengthLow := 0x8000000 }

/-- A memory map of one entry that takes in the pages of the kernel. -/
def wholeMemoryMap : MultibootInfo := { mmapLength := 24, mmap := fun _ => wholeMemory }

/-- With the whole memory in one entry, the counter is right after any number of allocations. -/
theorem free_pages_wholeMemoryMap :
    ∃ a, construct (Vector.replicate 4096 0) wholeMemoryMap 0x200000 = .ok a ∧
      ∀ k, ∃ results a', a.allocateRun k = .ok (results, a') ∧
        a'.freePages.toNat = a'.free.ncard := by
  have hlow (index : ℕ) (_ : index < wholeMemoryMap.mmapEntries) :
      EntryLow (wholeMemoryMap.mmap index) := show EntryLow wholeMemory from ⟨rfl, rfl, by decide⟩
  refine (free_pages_iff zeroed_storage hlow (fun i j hij hj => ?_) (by decide)).mpr fun p hp => ?_
  · have hone : j < 1 := hj
    omega
  · have hbounds : wholeMemory.base / 4096 = 0 ∧
        (wholeMemory.base + wholeMemory.length) / 4096 = 0x8000 := by decide
    have hkernel : (0x200000 : Word).toNat / 4096 = 0x200 := by decide
    have hpage : p ∈ entryPages wholeMemory := ⟨rfl, by omega, by omega⟩
    exact ⟨0, by decide, hpage⟩

/-- With the memory below 1 MiB not available, `free_pages` is too small. -/
theorem free_pages_oneEntryMap :
    ¬ ∃ a, construct (Vector.replicate 4096 0) oneEntryMap 0x200000 = .ok a ∧
      ∀ k, ∃ results a', a.allocateRun k = .ok (results, a') ∧
        a'.freePages.toNat = a'.free.ncard := by
  have hdisjoint (i j : ℕ) (hij : i < j) (hj : j < oneEntryMap.mmapEntries) :
      Disjoint (entryBytes (oneEntryMap.mmap i)) (entryBytes (oneEntryMap.mmap j)) := by
    have hone : j < 1 := hj
    omega
  obtain ⟨a, hconstruct, ha⟩ := construct_surplus zeroed_storage oneEntryMap_low hdisjoint
    (show (0x200000 : Word).toNat < 512 * 2 ^ 20 by decide)
  rintro ⟨b, hconstruct', hruns⟩
  obtain rfl : a = b := Except.ok.inj (hconstruct.symm.trans hconstruct')
  obtain ⟨results, a', hrun, hcount⟩ := hruns 0
  have hzero : a.surplus = 0#32 := by
    rw [← allocateRun_surplus hrun]
    exact (freePages_eq_iff (by decide)).mp hcount
  obtain ⟨index, -, -, hfirst, -⟩ := ha.mp hzero 0 (Nat.zero_le _)
  have hbase : lowMemory.base / 4096 ≤ 0 := hfirst
  exact absurd hbase (by decide)

/-- The memory from 1 MiB to 512 MiB. -/
def longMemory : MemoryMap := { lowMemory with lengthLow := 0x1FF00000 }

/-- A memory map of one entry, which ends where the bitmap does. -/
def longMemoryMap : MultibootInfo := { mmapLength := 24, mmap := fun _ => longMemory }

/-- The long entry has low memory only. -/
theorem longMemoryMap_low : ∀ index < longMemoryMap.mmapEntries,
    EntryLow (longMemoryMap.mmap index) :=
  fun _ _ => show EntryLow longMemory from ⟨rfl, rfl, by decide⟩

/-- With the kernel ending at 2 MiB, all pages from there up to 512 MiB are available. -/
theorem ncard_longMemoryMap : 130559 ≤ (availablePages longMemoryMap 0x200000).ncard := by
  have hkernel : (0x200000 : Word).toNat / 4096 = 0x200 := rfl
  have hbounds : longMemory.base / 4096 = 0x100 ∧
      (longMemory.base + longMemory.length) / 4096 = 0x20000 := by decide
  have hpages (p : ℕ) : p ∈ entryPages longMemory ↔ 0x100 ≤ p ∧ p < 0x20000 := by
    rw [← hbounds.1, ← hbounds.2]
    exact and_iff_right rfl
  have hsub : Set.Iio 0x20000 \ Set.Iio 0x201 ⊆ availablePages longMemoryMap 0x200000 := by
    intro p hp
    simp only [Set.mem_sdiff, Set.mem_Iio] at hp
    exact ⟨⟨0, by decide, (hpages p).mpr (by omega)⟩, by omega⟩
  have hfinite : (availablePages longMemoryMap 0x200000).Finite :=
    (Set.finite_Iio 0x20000).subset fun p ⟨⟨_, _, hp⟩, _⟩ => ((hpages p).mp hp).2
  have hle := Set.ncard_le_ncard hsub hfinite
  rw [Set.ncard_sdiff (Set.Iio_subset_Iio (by omega)) (Set.finite_Iio _), ncard_Iio,
    ncard_Iio] at hle
  omega

end BitmapAllocator

end Muk
