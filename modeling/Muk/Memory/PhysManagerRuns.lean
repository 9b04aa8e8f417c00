import Muk.Memory.PhysManager

/-!
# Runs of the physical page allocator

The three loops of the constructor leave exactly the pages of available entries
above the kernel free. From there each call of `AllocatePage` takes the least
page left, so a run of calls walks through the free pages in increasing order.
-/

namespace Muk

namespace BitmapAllocator

variable {bitmapSize : ℕ}

/-- The pages an entry describes wholly: those from the page of its base up to
the page of its end, if the entry is available. -/
def entryPages (e : MemoryMap) : Set ℕ :=
  {p | e.type = multibootMemoryAvailable ∧ e.base / 4096 ≤ p ∧ p < (e.base + e.length) / 4096}

/-- The pages of some available entry that lie above the page of the kernel's end. -/
def availablePages (mboot : MultibootInfo) (kernelEnd : Word) : Set ℕ :=
  {p | (∃ index < mboot.mmapEntries, p ∈ entryPages (mboot.mmap index)) ∧
    kernelEnd.toNat / 4096 < p}

/-- An entry as the boot loader is assumed to report it: no high words, and an
end at or below 512 MiB. -/
def EntryLow (e : MemoryMap) : Prop :=
  e.baseAddrHigh = 0 ∧ e.lengthHigh = 0 ∧ e.base + e.length ≤ 512 * 2 ^ 20

/-- `(x & 0xFFFFF000) >> 12` is the page of an address. -/
theorem toNat_page (x : Word) : ((x &&& 0xFFFFF000#32) >>> 12).toNat = x.toNat / 4096 := by
  have hmask : (0xFFFFF000 : ℕ) >>> 12 = 2 ^ 20 - 1 := by decide
  rw [BitVec.toNat_ushiftRight, BitVec.toNat_and, Nat.shiftRight_and_distrib]
  change x.toNat >>> 12 &&& 0xFFFFF000 >>> 12 = _
  rw [hmask, Nat.and_two_pow_sub_one_eq_mod, Nat.shiftRight_eq_div_pow]
  omega

/-! ## The constructor -/

/-- Freeing a range of pages one after the other. -/
theorem pageFree_loop (a : BitmapAllocator bitmapSize) (first count : ℕ)
    (hsize : bitmapSize ≤ 2 ^ 27) (hend : first + count ≤ 32 * bitmapSize) :
    ∃ a', forLoop (fun pgIndex a => a.pageFree (BitVec.ofNat 32 pgIndex)) first count a = .ok a' ∧
      a'.free = a.free ∪ Set.Ico first (first + count) := by
  apply forLoop_invariant (fun i (b : BitmapAllocator bitmapSize) =>
    b.free = a.free ∪ Set.Ico first (first + i))
  · simp
  · intro i hi b hb
    obtain ⟨b', hcall, hfree⟩ := b.pageFree_spec (show first + i < 32 * bitmapSize by omega)
      (by omega)
    refine ⟨b', hcall, ?_⟩
    rw [hfree, hb, ← Nat.add_assoc]
    ext x
    simp only [Set.mem_insert_iff, Set.mem_union, Set.mem_Ico]
    grind

/-- Taking a range of pages that starts at page zero. -/
theorem pageTaken_loop (a : BitmapAllocator bitmapSize) (count : ℕ)
    (hsize : bitmapSize ≤ 2 ^ 27) (hend : count ≤ 32 * bitmapSize) :
    ∃ a', forLoop (fun pgIndex a => a.pageTaken (BitVec.ofNat 32 pgIndex)) 0 count a = .ok a' ∧
      a'.free = a.free \ Set.Iio count := by
  apply forLoop_invariant (fun i (b : BitmapAllocator bitmapSize) => b.free = a.free \ Set.Iio i)
  · simp
  · intro i hi b hb
    rw [Nat.zero_add]
    obtain ⟨b', hcall, hfree⟩ := b.pageTaken_spec (show i < 32 * bitmapSize by omega) (by omega)
    refine ⟨b', hcall, ?_⟩
    rw [hfree, hb]
    ext x
    simp only [Set.mem_sdiff, Set.mem_Iio, Set.mem_singleton_iff]
    grind

/-- The pages that the constructor marks free for an entry. It adds the low words of the base
and the length, and rounds the base down as well as the end. -/
def freedPages (e : MemoryMap) : Set ℕ :=
  {p | e.type = multibootMemoryAvailable ∧ e.baseAddrLow.toNat / 4096 ≤ p ∧
    p < (e.baseAddrLow + e.lengthLow).toNat / 4096}

/-- An entry whose pages all have a bit in the bitmap. -/
def EntryFits (e : MemoryMap) : Prop := ∀ p ∈ freedPages e, p < 32 * 4096

/-- The pages whose bit is set in the storage that the constructor runs on. -/
def storageFree (storage : Vector Word 4096) : Set ℕ :=
  free { freePages := 0, bitmap := storage }

/-- One pass of the entry loop frees the pages of its entry. -/
theorem freeEntry_spec (a : BitmapAllocator 4096) {e : MemoryMap} (he : EntryFits e) :
    ∃ a', freeEntry e a = .ok a' ∧ a'.free = a.free ∪ freedPages e := by
  by_cases htype : e.type = multibootMemoryAvailable
  · simp only [freeEntry, if_pos htype, toNat_page]
    generalize hfirst : e.baseAddrLow.toNat / 4096 = first
    generalize hend : (e.baseAddrLow + e.lengthLow).toNat / 4096 = endPg
    have hpages : freedPages e = Set.Ico first endPg := by
      ext p
      rw [← hfirst, ← hend]
      exact and_iff_right htype
    by_cases hlt : first < endPg
    · have hlast : endPg - 1 < 32 * 4096 := he _ (hpages ▸ ⟨by omega, by omega⟩)
      obtain ⟨a', hcall, hfree⟩ := a.pageFree_loop first (endPg - first) (by omega) (by omega)
      refine ⟨a', hcall, ?_⟩
      rw [hfree, hpages, Nat.add_sub_cancel' (by omega)]
    · refine ⟨a, by rw [Nat.sub_eq_zero_of_le (by omega)]; rfl, ?_⟩
      rw [hpages, Set.Ico_eq_empty hlt, Set.union_empty]
  · refine ⟨a, if_neg htype, ?_⟩
    simp [freedPages, htype]

/-- If it succeeds, then all of these pages have a bit. -/
theorem entryFits_of_freeEntry {a a' : BitmapAllocator 4096} {e : MemoryMap}
    (h : freeEntry e a = .ok a') : EntryFits e := by
  rintro p ⟨htype, hfirst, hend⟩
  simp only [freeEntry, if_pos htype, toNat_page] at h
  obtain ⟨t, t', hpass⟩ := forLoop_pass h
    (show p - e.baseAddrLow.toNat / 4096 < _ from Nat.sub_lt_sub_right hfirst hend)
  rw [Nat.add_sub_cancel' hfirst] at hpass
  by_contra hp
  have hword := (e.baseAddrLow + e.lengthLow).isLt
  rw [t.pageFree_error (by omega) (by omega)] at hpass
  exact nomatch hpass

/-- The number of pages up to the kernel's end. -/
theorem toNat_kernelPages (kernelEnd : Word) :
    ((kernelEnd &&& 0xFFFFF000#32) >>> 12 + 1).toNat = kernelEnd.toNat / 4096 + 1 := by
  have hone : (1 : Word).toNat = 1 := rfl
  have hlt := kernelEnd.isLt
  rw [BitVec.toNat_add, toNat_page, hone]
  omega

/-- The constructor leaves the pages that were set in its storage or that it freed for an entry,
but for those up to the kernel's end. -/
theorem construct_ok (storage : Vector Word 4096) {mboot : MultibootInfo} {kernelEnd : Word}
    (hentries : ∀ index < mboot.mmapEntries, EntryFits (mboot.mmap index))
    (hkernel : kernelEnd.toNat < 512 * 2 ^ 20) :
    ∃ a, construct storage mboot kernelEnd = .ok a ∧ a.free =
      {p |
        (p ∈ storageFree storage ∨ ∃ index < mboot.mmapEntries, p ∈ freedPages (mboot.mmap index)) ∧
        kernelEnd.toNat / 4096 < p} := by
  let start : BitmapAllocator 4096 := { freePages := 0, bitmap := storage }
  obtain ⟨filled, hentriesLoop, hfilled⟩ : ∃ filled : BitmapAllocator 4096,
      forLoop (fun index a => freeEntry (mboot.mmap index) a) 0 mboot.mmapEntries start =
        .ok filled ∧
      filled.free =
        start.free ∪ {p | ∃ index < mboot.mmapEntries, p ∈ freedPages (mboot.mmap index)} :=
    forLoop_invariant
    (fun i (b : BitmapAllocator 4096) =>
      b.free = start.free ∪ {p | ∃ index < i, p ∈ freedPages (mboot.mmap index)})
    (by simp)
    (by
      intro i hi b hb
      rw [Nat.zero_add]
      obtain ⟨b', hcall, hfree⟩ := b.freeEntry_spec (hentries i hi)
      refine ⟨b', hcall, ?_⟩
      rw [hfree, hb, Set.union_assoc]
      apply congrArg _
      ext p
      simp only [Set.mem_union, Set.mem_ofPred_eq]
      constructor
      · rintro (⟨index, hindex, hp⟩ | hp)
        · exact ⟨index, by omega, hp⟩
        · exact ⟨i, by omega, hp⟩
      · rintro ⟨index, hindex, hp⟩
        by_cases heq : index = i
        · subst index
          exact Or.inr hp
        · exact Or.inl ⟨index, by omega, hp⟩)
  obtain ⟨a, hkernelLoop, hfree⟩ := filled.pageTaken_loop
    (kernelEnd.toNat / 4096 + 1) (by omega) (by omega)
  refine ⟨a, ?_, ?_⟩
  · change (forLoop _ 0 mboot.mmapEntries start >>= fun a => _) = _
    rw [hentriesLoop]
    change forLoop _ 0 _ filled = _
    rw [toNat_kernelPages, hkernelLoop]
  · rw [hfree, hfilled]
    ext p
    simp only [Set.mem_sdiff, Set.mem_union, Set.mem_ofPred_eq, Set.mem_Iio, Nat.not_lt,
      Nat.succ_le_iff]
    rfl

/-- The constructor stays inside the bitmap when the entries and the kernel do only. -/
theorem fits_of_construct {storage : Vector Word 4096} {mboot : MultibootInfo} {kernelEnd : Word}
    {a : BitmapAllocator 4096} (h : construct storage mboot kernelEnd = .ok a) :
    (∀ index < mboot.mmapEntries, EntryFits (mboot.mmap index)) ∧
      kernelEnd.toNat < 512 * 2 ^ 20 := by
  obtain ⟨filled, hentriesLoop, hkernelLoop⟩ := bind_eq_ok.mp h
  dsimp only at hkernelLoop
  rw [toNat_kernelPages] at hkernelLoop
  constructor
  · intro index hindex
    obtain ⟨t, t', hpass⟩ := forLoop_pass hentriesLoop hindex
    rw [Nat.zero_add] at hpass
    exact entryFits_of_freeEntry hpass
  · by_contra hlarge
    have hword := kernelEnd.isLt
    obtain ⟨t, t', hpass⟩ := forLoop_pass hkernelLoop (Nat.lt_succ_self _)
    rw [Nat.zero_add, t.pageTaken_error (by omega) (by omega)] at hpass
    exact nomatch hpass

/-- Of a low entry, the constructor frees the pages that it describes. -/
theorem EntryLow.freedPages {e : MemoryMap} (he : EntryLow e) : freedPages e = entryPages e := by
  obtain ⟨hbase, hlength, hend⟩ := he
  have hzero : (0 : Word).toNat = 0 := rfl
  simp only [MemoryMap.base, MemoryMap.length, hbase, hlength, hzero] at hend
  have hsum : (e.baseAddrLow + e.lengthLow).toNat =
      e.baseAddrLow.toNat + e.lengthLow.toNat := by
    rw [BitVec.toNat_add, Nat.mod_eq_of_lt (by omega)]
  ext p
  simp only [BitmapAllocator.freedPages, entryPages, hsum, Set.mem_ofPred_eq, MemoryMap.base,
    MemoryMap.length, hbase, hlength, hzero, Nat.mul_zero, Nat.zero_add]

/-- An entry of low memory does not wrap. -/
theorem EntryLow.fits {e : MemoryMap} (he : EntryLow e) : EntryFits e := by
  intro p hp
  rw [he.freedPages] at hp
  obtain ⟨-, -, hlt⟩ := hp
  have hend := he.2.2
  omega

/-- The storage of a kernel that was just loaded. -/
theorem zeroed_storage (chunk : ℕ) (h : chunk < 4096) :
    (Vector.replicate 4096 (0 : Word))[chunk] = 0 := by
  simp

/-- No page is set in zeroed storage. -/
theorem storageFree_zero {storage : Vector Word 4096}
    (hstorage : ∀ chunk (h : chunk < 4096), storage[chunk] = 0) : storageFree storage = ∅ := by
  ext p
  simp only [storageFree, mem_free, Set.mem_empty_iff_false, iff_false]
  by_cases hp : p / 32 < 4096
  · simp [word, hp, hstorage]
  · simp [word, hp]

/-- On zeroed storage the constructor leaves exactly the available pages free. -/
theorem construct_spec {storage : Vector Word 4096} {mboot : MultibootInfo} {kernelEnd : Word}
    (hstorage : ∀ chunk (h : chunk < 4096), storage[chunk] = 0)
    (hentries : ∀ index < mboot.mmapEntries, EntryLow (mboot.mmap index))
    (hkernel : kernelEnd.toNat < 512 * 2 ^ 20) :
    ∃ a, construct storage mboot kernelEnd = .ok a ∧ a.free = availablePages mboot kernelEnd := by
  obtain ⟨a, hconstruct, hfree⟩ :=
    construct_ok storage (fun index hindex => (hentries index hindex).fits) hkernel
  refine ⟨a, hconstruct, ?_⟩
  rw [hfree, storageFree_zero hstorage]
  ext p
  simp only [Set.mem_empty_iff_false, false_or, availablePages, Set.mem_ofPred_eq]
  refine and_congr_left fun _ => exists_congr fun index => and_congr_right fun hindex => ?_
  rw [(hentries index hindex).freedPages]

/-! ## Runs of calls -/

/-- The results of `k` calls of `AllocatePage` made one after the other, and the
allocator they leave. -/
def allocateRun (a : BitmapAllocator bitmapSize) :
    ℕ → Except Fault (List Word × BitmapAllocator bitmapSize)
  | 0 => .ok ([], a)
  | k + 1 => do
    let (results, a) ← allocateRun a k
    let (page, a) ← a.allocatePage
    .ok (results ++ [page], a)

/-- What call number `k` returns when `F` is the set of free pages before the
first call: the address of page number `k` of `F`, or `NULL` if there is none. -/
noncomputable def pageResult (F : Set ℕ) (k : ℕ) : Word :=
  if k < F.ncard then BitVec.ofNat 32 (4096 * Nat.nth (· ∈ F) k) else 0

/-- The run lemma: `k` calls return the first `k` results and leave what remains
of the free pages. -/
theorem allocateRun_spec (a : BitmapAllocator 4096) (k : ℕ) :
    ∃ a', a.allocateRun k = .ok ((List.range k).map (pageResult a.free), a') ∧
      a'.free = dropLeast a.free k := by
  have hfinite := a.finite_free
  induction k with
  | zero => exact ⟨a, rfl, by simp⟩
  | succ k ih =>
    obtain ⟨b, hrun, hb⟩ := ih
    by_cases hk : k < a.free.ncard
    · have hleast : IsLeast b.free (Nat.nth (· ∈ a.free) k) := by
        rw [hb]
        exact isLeast_dropLeast hfinite hk
      have hlt := lt_of_mem_free (nth_mem_of_lt_ncard hk)
      obtain ⟨a', hcall, hfree⟩ := allocatePage_isLeast (by omega) hleast
      refine ⟨a', ?_, by rw [hfree, hb, dropLeast_succ]⟩
      rw [ofNat_shiftLeft_page] at hcall
      simp [allocateRun, hrun, hcall, List.range_succ, pageResult, hk, bind, Except.bind]
    · have hempty : b.free = ∅ := by rw [hb, dropLeast_eq_empty hfinite (by omega)]
      refine ⟨b, ?_, by rw [hempty, dropLeast_eq_empty hfinite (by omega)]⟩
      simp [allocateRun, hrun, allocatePage_empty hempty, List.range_succ, pageResult, hk, bind,
        Except.bind]

/-- The pages handed out are in range, so their addresses are exact. -/
theorem pageResult_toNat {a : BitmapAllocator 4096} {k : ℕ} (hk : k < a.free.ncard) :
    (pageResult a.free k).toNat = 4096 * Nat.nth (· ∈ a.free) k := by
  have hlt := lt_of_mem_free (nth_mem_of_lt_ncard hk)
  rw [pageResult, if_pos hk, BitVec.toNat_ofNat]
  omega

/-- **The allocator over whole runs.** After construction from a memory map below
512 MiB, the results of any number of calls are the addresses of the available
pages in increasing order, then `NULL`; a call after the last page changes
nothing. -/
theorem allocatePage_run {storage : Vector Word 4096} {mboot : MultibootInfo} {kernelEnd : Word}
    (hstorage : ∀ chunk (h : chunk < 4096), storage[chunk] = 0)
    (hentries : ∀ index < mboot.mmapEntries, EntryLow (mboot.mmap index))
    (hkernel : kernelEnd.toNat < 512 * 2 ^ 20) :
    let F := availablePages mboot kernelEnd
    ∃ a, construct storage mboot kernelEnd = .ok a ∧
      (∀ k, ∃ a', a.allocateRun k = .ok ((List.range k).map (pageResult F), a') ∧
        (F.ncard ≤ k → a'.allocatePage = .ok (0, a'))) ∧
      (∀ k < F.ncard, (pageResult F k).toNat = 4096 * Nat.nth (· ∈ F) k ∧
        kernelEnd.toNat / 4096 < (pageResult F k).toNat / 4096) ∧
      (∀ k, F.ncard ≤ k → pageResult F k = 0) ∧
      (∀ j k, j < k → k < F.ncard → (pageResult F j).toNat < (pageResult F k).toNat) := by
  obtain ⟨a, hconstruct, hfree⟩ := construct_spec hstorage hentries hkernel
  refine ⟨a, hconstruct, ?_, ?_, ?_, ?_⟩
  · intro k
    obtain ⟨a', hrun, hleft⟩ := a.allocateRun_spec k
    rw [hfree] at hrun hleft
    refine ⟨a', hrun, fun hk => allocatePage_empty ?_⟩
    rw [hleft, dropLeast_eq_empty (hfree ▸ a.finite_free) hk]
  · intro k hk
    rw [← hfree] at hk ⊢
    have hmem := nth_mem_of_lt_ncard hk
    have habove : kernelEnd.toNat / 4096 < Nat.nth (· ∈ a.free) k := by
      rw [hfree] at hmem ⊢
      exact hmem.2
    rw [pageResult_toNat hk]
    exact ⟨rfl, by omega⟩
  · intro k hk
    rw [pageResult, if_neg (by omega)]
  · intro j k hjk hk
    rw [← hfree] at hk ⊢
    rw [pageResult_toNat hk, pageResult_toNat (by omega)]
    have := nth_lt_nth_of_lt_ncard hjk hk
    omega

/-- The memory from 1 MiB to 128 MiB. -/
def lowMemory : MemoryMap where
  size := 20
  baseAddrLow := 0x100000
  baseAddrHigh := 0
  lengthLow := 0x7F00000
  lengthHigh := 0
  type := multibootMemoryAvailable

/-- A memory map of one entry. -/
def oneEntryMap : MultibootInfo := { mmapLength := 24, mmap := fun _ => lowMemory }

/-- The map with one entry has low memory only. -/
theorem oneEntryMap_low : ∀ index < oneEntryMap.mmapEntries, EntryLow (oneEntryMap.mmap index) :=
  fun _ _ => show EntryLow lowMemory from ⟨rfl, rfl, by decide⟩

/-- With the kernel ending at 2 MiB, the pages above it up to 128 MiB are available. -/
theorem oneEntryMap_available : availablePages oneEntryMap 0x200000 = Set.Ioo 0x200 0x8000 := by
  have hend : (0x200000 : Word).toNat / 4096 = 0x200 := rfl
  have hentries : oneEntryMap.mmapEntries = 1 := rfl
  have hpages (index : ℕ) : entryPages (oneEntryMap.mmap index) = Set.Ico 0x100 0x8000 := by
    have hbounds : lowMemory.base / 4096 = 0x100 ∧
        (lowMemory.base + lowMemory.length) / 4096 = 0x8000 := by decide
    ext p
    change (lowMemory.type = multibootMemoryAvailable ∧ lowMemory.base / 4096 ≤ p ∧
      p < (lowMemory.base + lowMemory.length) / 4096) ↔ _
    rw [hbounds.1, hbounds.2]
    exact and_iff_right rfl
  ext p
  simp only [availablePages, hend, hentries, hpages, Set.mem_ofPred_eq, Set.mem_Ico, Set.mem_Ioo]
  constructor
  · rintro ⟨⟨_, _, hp⟩, habove⟩
    exact ⟨habove, hp.2⟩
  · rintro ⟨habove, hp⟩
    exact ⟨⟨0, by omega, by omega, hp⟩, habove⟩

/-- With one entry the pages behind the kernel are handed out in order, and then no more. -/
theorem allocatePage_run_oneEntryMap :
    ∃ a, construct (Vector.replicate 4096 0) oneEntryMap 0x200000 = .ok a ∧
      ∀ k, ∃ a', a.allocateRun k =
        .ok ((List.range k).map (pageResult (Set.Ioo 0x200 0x8000)), a') := by
  have hkernel : (0x200000 : Word).toNat < 512 * 2 ^ 20 := by decide
  obtain ⟨a, hconstruct, hruns, -⟩ := allocatePage_run zeroed_storage oneEntryMap_low hkernel
  refine ⟨a, hconstruct, fun k => ?_⟩
  obtain ⟨a', hrun, -⟩ := hruns k
  rw [oneEntryMap_available] at hrun
  exact ⟨a', hrun⟩

end BitmapAllocator

end Muk
