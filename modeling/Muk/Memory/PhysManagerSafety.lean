import Muk.Memory.PhysManagerRuns

/-!
# Safety of the page bitmap

What a memory map, the end of the kernel and the storage of the bitmap have to be like for the
constructor of `BitmapAllocator` to stay inside the bitmap and to leave no page free but those
that the memory map describes.
-/

namespace Muk

namespace BitmapAllocator

/-- The page lies wholly inside the range of an available entry, high words included. -/
def Described (mboot : MultibootInfo) (p : ℕ) : Prop :=
  ∃ index < mboot.mmapEntries, (mboot.mmap index).type = multibootMemoryAvailable ∧
    (mboot.mmap index).base ≤ 4096 * p ∧
    4096 * (p + 1) ≤ (mboot.mmap index).base + (mboot.mmap index).length

/-- The constructor uses no word past the end of the bitmap, and every page that is free after it
is described by the memory map and lies above the page of the kernel's end. -/
def Safe (storage : Vector Word 4096) (mboot : MultibootInfo) (kernelEnd : Word) : Prop :=
  ∃ a, construct storage mboot kernelEnd = .ok a ∧
    ∀ p ∈ a.free, kernelEnd.toNat / 4096 < p ∧ Described mboot p

/-- **When the page bitmap is safe.** The kernel ends below 512 MiB, the low words of every
available entry give no page past 512 MiB, and every page above the kernel that they give, or
that was set in the storage before, is described by the memory map. -/
theorem safe_iff (storage : Vector Word 4096) (mboot : MultibootInfo) (kernelEnd : Word) :
    Safe storage mboot kernelEnd ↔
      kernelEnd.toNat < 512 * 2 ^ 20 ∧
      (∀ index < mboot.mmapEntries, EntryFits (mboot.mmap index)) ∧
      ∀ p > kernelEnd.toNat / 4096,
        (p ∈ storageFree storage ∨ ∃ index < mboot.mmapEntries, p ∈ freedPages (mboot.mmap index)) →
        Described mboot p := by
  constructor
  · rintro ⟨a, hconstruct, hsafe⟩
    obtain ⟨hentries, hkernel⟩ := fits_of_construct hconstruct
    refine ⟨hkernel, hentries, fun p habove hp => ?_⟩
    obtain ⟨b, hconstruct', hfree⟩ := construct_ok storage hentries hkernel
    obtain rfl : a = b := Except.ok.inj (hconstruct.symm.trans hconstruct')
    exact (hsafe p (hfree ▸ ⟨hp, habove⟩)).2
  · rintro ⟨hkernel, hentries, hdescribed⟩
    obtain ⟨a, hconstruct, hfree⟩ := construct_ok storage hentries hkernel
    refine ⟨a, hconstruct, fun p hp => ?_⟩
    rw [hfree] at hp
    exact ⟨hp.2, hdescribed p hp.2 hp.1⟩

/-- 128 MiB of memory that start at 4 GiB. -/
def highMemory : MemoryMap where
  size := 20
  baseAddrLow := 0
  baseAddrHigh := 1
  lengthLow := 0x8000000
  lengthHigh := 0
  type := multibootMemoryAvailable

/-- A memory map with memory past 4 GiB. -/
def highMemoryMap : MultibootInfo := { mmapLength := 24, mmap := fun _ => highMemory }

/-- An entry above the bitmap frees all pages below its length. -/
theorem highMemory_freedPages : freedPages highMemory = Set.Iio 0x8000 := by
  have hbounds : highMemory.baseAddrLow.toNat / 4096 = 0 ∧
      (highMemory.baseAddrLow + highMemory.lengthLow).toNat / 4096 = 0x8000 := by decide
  ext p
  change (highMemory.type = multibootMemoryAvailable ∧ highMemory.baseAddrLow.toNat / 4096 ≤ p ∧
    p < (highMemory.baseAddrLow + highMemory.lengthLow).toNat / 4096) ↔ _
  rw [hbounds.1, hbounds.2, Set.mem_Iio]
  exact ⟨fun h => h.2.2, fun h => ⟨rfl, Nat.zero_le p, h⟩⟩

/-- Of memory past 4 GiB, the pages with the same low words are marked free. -/
theorem highMemory_not_safe : ¬ Safe (Vector.replicate 4096 0) highMemoryMap 0x200000 := by
  have hfits : ∀ index < highMemoryMap.mmapEntries, EntryFits (highMemoryMap.mmap index) := by
    intro index _ p hp
    have hlt : p ∈ Set.Iio 0x8000 := highMemory_freedPages ▸ hp
    exact Nat.lt_trans hlt (by decide)
  obtain ⟨a, hconstruct, hfree⟩ := construct_ok (Vector.replicate 4096 0) hfits
    (show (0x200000 : Word).toNat < 512 * 2 ^ 20 by decide)
  rintro ⟨b, hconstruct', hsafe⟩
  obtain rfl : a = b := Except.ok.inj (hconstruct.symm.trans hconstruct')
  have hpage : 0x7FFF ∈ freedPages highMemory := by
    rw [highMemory_freedPages]
    decide
  obtain ⟨-, index, -, -, hbase, -⟩ :=
    hsafe 0x7FFF (hfree ▸ ⟨Or.inr ⟨0, by decide, hpage⟩, by decide⟩)
  have hhigh : highMemory.base ≤ 4096 * 0x7FFF := hbase
  exact absurd hhigh (by decide)

end BitmapAllocator

end Muk
