import Muk.Memory.PageTables
import Muk.Memory.PhysManagerRuns

/-!
# `Memory::Setup`

The boot code leaves a directory with one entry, the 4 MiB page of the kernel.
`Memory::Setup` builds the bitmap of free pages and makes the last entry of the
directory point to the directory itself.
-/

namespace Muk

namespace Machine

variable {s : Machine} {kernelEnd : Word}

/-- `PageTableManager::PageTableManager`: the last directory entry points to the
directory. Its bits are those of a page table's entry. -/
def pageTableManager (s : Machine) (virtualAddress physicalAddress : Word) :
    Except Fault Machine :=
  let s := { s with pageDir := virtualAddress }
  s.writeWord (s.pageDir + 4#32 * 1023#32) (tableEntry physicalAddress)

/-- `Memory::Setup`, on the given storage of the bitmap: `pdVirtualAddress` and
`pdPhysicalAddress` are the addresses of the directory defined in the boot code. -/
def setup (s : Machine) (mboot : MultibootInfo)
    (kernelEnd pdVirtualAddress pdPhysicalAddress : Word) :
    Except Fault Machine := do
  let phys ← BitmapAllocator.construct s.physManager.bitmap mboot kernelEnd
  { s with physManager := phys }.pageTableManager pdVirtualAddress pdPhysicalAddress

/-- What the boot code leaves: the directory lies in the kernel image and in its first
4 MiB, which entry 768 maps; the other entries are zero. -/
structure Booted (s : Machine) (kernelEnd pdVirtualAddress pdPhysicalAddress : Word) : Prop where
  kernel_entry : s.pde 768 = 0x83#32
  other_entries : ∀ i ≠ 768, s.pde i = 0
  physical : pdPhysicalAddress = physAddr s.cr3 0
  virtual : pdVirtualAddress = pdPhysicalAddress + 0xC0000000#32
  in_kernel : s.cr3.toNat ≤ kernelEnd.toNat / 4096
  low : s.cr3.toNat < 1024
  bitmap : ∀ chunk (h : chunk < 4096), s.physManager.bitmap[chunk] = 0

/-- The state `Memory::Setup` builds. -/
structure SetupState (kernelEnd : Word) (s : Machine) : Prop where
  pageDir : s.translate s.pageDir = some (physAddr s.cr3 0)
  recursive : s.HasTable 1023
  recursive_frame : frameOf (s.pde 1023) = s.cr3
  kernel_large : present (s.pde 768) ∧ large (s.pde 768)
  others_absent : ∀ i ≠ 1023, i ≠ 768 → ¬ present (s.pde i)
  in_kernel : s.cr3.toNat ≤ kernelEnd.toNat / 4096
  free_above : ∀ p ∈ s.physManager.free, kernelEnd.toNat / 4096 < p

/-- The only table of the state `Memory::Setup` builds is the directory itself. -/
theorem SetupState.hasTable (h : s.SetupState kernelEnd) {i : EntryIndex} (hi : s.HasTable i) :
    i = 1023 := by
  by_contra hne
  by_cases h768 : i = 768
  · subst i
    exact hi.2 h.kernel_large.2
  · exact h.others_absent i hne h768 hi.1

/-- The state after `Memory::Setup` is one in which `MapPage` works. -/
theorem SetupState.good (h : s.SetupState kernelEnd) : s.Good := by
  refine ⟨h.pageDir, h.recursive, h.recursive_frame, fun i hi ht => ?_, fun i j hi _ ht _ _ => ?_,
    fun i hi ht => ?_, fun hmem => ?_⟩
  · exact absurd (h.hasTable ht) hi
  · exact absurd (h.hasTable ht) hi
  · exact absurd (h.hasTable ht) hi
  · have := h.free_above _ hmem
    have := h.in_kernel
    omega

/-- An address in the kernel's 4 MiB page. -/
theorem translate_kernel (hentry : s.pde 768 = 0x83#32) {va : Word}
    (hva : va.toNat / 2 ^ 22 = 768) :
    s.translate va = some (BitVec.ofNat 32 (va.toNat % 2 ^ 22)) := by
  have hpd : pdIndex va = 768 := by
    apply BitVec.eq_of_toNat_eq
    rw [toNat_pdIndex, hva]
    rfl
  rw [pde] at hentry
  have hp : present 0x83#32 = true := by decide
  have hl : large 0x83#32 = true := by decide
  have hbase : (0x83#32 : Word).toNat / 2 ^ 22 * 2 ^ 22 = 0 := by decide
  simp only [translate, Muk.translate, hpd, hentry, hp, hl, Bool.not_true, Bool.false_eq_true,
    if_false, if_true, hbase, Nat.zero_add]

/-- The address of a frame in the kernel's 4 MiB page. -/
theorem translate_kernel_frame (hentry : s.pde 768 = 0x83#32) {va : Word} {f : Frame}
    (hva : va.toNat = 0xC0000000 + 4096 * f.toNat) (hf : f.toNat < 1024) :
    s.translate va = some (physAddr f 0) := by
  rw [translate_kernel hentry (by omega), hva, physAddr]
  congr 2
  omega

/-- **`Memory::Setup`.** From the state the boot code leaves, with a memory map as the
boot loader is assumed to report it, `Memory::Setup` makes the directory recursive and
frees exactly the available pages above the kernel. -/
theorem setup_spec {mboot : MultibootInfo} {pdVirtualAddress pdPhysicalAddress : Word}
    (hboot : s.Booted kernelEnd pdVirtualAddress pdPhysicalAddress)
    (hentries : ∀ index < mboot.mmapEntries, BitmapAllocator.EntryLow (mboot.mmap index))
    (hkernel : kernelEnd.toNat < 512 * 2 ^ 20) :
    ∃ s', s.setup mboot kernelEnd pdVirtualAddress pdPhysicalAddress = .ok s' ∧
      s'.SetupState kernelEnd ∧
      s'.physManager.free = BitmapAllocator.availablePages mboot kernelEnd := by
  obtain ⟨phys, hconstruct, hfree⟩ :=
    BitmapAllocator.construct_spec hboot.bitmap hentries hkernel
  have hlow := hboot.low
  have hphys : pdPhysicalAddress.toNat = 4096 * s.cr3.toNat := by
    rw [hboot.physical, toNat_physAddr _ (by omega)]
    omega
  have hvirt : pdVirtualAddress.toNat = 0xC0000000 + 4096 * s.cr3.toNat := by
    rw [hboot.virtual, BitVec.toNat_add, hphys]
    simp only [BitVec.toNat_ofNat]
    omega
  let t : Machine := { s with physManager := phys, pageDir := pdVirtualAddress }
  have hdir : t.translate pdVirtualAddress = some (physAddr s.cr3 0) :=
    translate_kernel_frame (s := t) hboot.kernel_entry hvirt (by omega)
  have hlast : t.translate (t.pageDir + 4#32 * 1023#32) = some (entryAddr s.cr3 1023) :=
    translate_pageDir (i := 1023) hdir rfl
  let s' : Machine :=
    { t with ram := store32 s.ram (entryAddr s.cr3 1023) (tableEntry pdPhysicalAddress) }
  have hpde (i : EntryIndex) : s'.pde i =
      if i = 1023 then tableEntry pdPhysicalAddress else s.pde i := by
    change entry (store32 s.ram (entryAddr s.cr3 1023) _) s.cr3 i = _
    simp only [entry_store32, true_and]
    rfl
  have h1023 : s'.pde 1023 = tableEntry pdPhysicalAddress := by rw [hpde, if_pos rfl]
  have h768 : s'.pde 768 = 0x83#32 := by
    rw [hpde, if_neg (by decide), hboot.kernel_entry]
  obtain ⟨hp, hl, hframe⟩ := tableEntry_spec (a := pdPhysicalAddress) (by omega)
  refine ⟨s', ?_, ⟨?_, ?_, ?_, ?_, fun i hi hi' => ?_, hboot.in_kernel, ?_⟩, hfree⟩
  · rw [setup, hconstruct]
    change t.writeWord (t.pageDir + 4#32 * 1023#32) _ = _
    simp only [writeWord, hlast]
    rfl
  · exact translate_kernel_frame h768 hvirt (by omega)
  · rw [HasTable, h1023, hp, hl]
    simp
  · rw [h1023, hframe, hboot.physical, frameOf_physAddr _ (by omega)]
  · rw [h768]
    decide
  · rw [hpde, if_neg hi, hboot.other_entries i hi']
    decide
  · intro p hp
    change p ∈ phys.free at hp
    rw [hfree] at hp
    exact hp.2

/-- A machine as the boot code leaves it, with the directory in frame `0x105` and
nothing else in memory. -/
def bootMachine : Machine where
  ram := store32 (fun _ => 0) (entryAddr 0x105 768) 0x83#32
  cr3 := 0x105
  pageDir := 0
  physManager := { freePages := 0, bitmap := Vector.replicate 4096 0 }

/-- The boot machine is as the bootstrapper leaves it. -/
theorem bootMachine_booted : bootMachine.Booted 0x200000 0xC0105000 0x105000 := by
  have hpde (i : EntryIndex) : bootMachine.pde i = if i = 768 then 0x83#32 else 0 := by
    have hzero : entry (fun _ => 0) 0x105 i = 0#32 := by
      have hbytes : ofBytes 0 0 0 0 = 0#32 := by decide
      exact hbytes
    change entry (store32 _ (entryAddr 0x105 768) _) 0x105 i = _
    rw [entry_store32, hzero]
    simp only [true_and]
    rfl
  refine ⟨by rw [hpde, if_pos rfl], fun i hi => by rw [hpde, if_neg hi], rfl, rfl, by decide,
    by decide, fun chunk h => ?_⟩
  simp [bootMachine]

end Machine

end Muk
