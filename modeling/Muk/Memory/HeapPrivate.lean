import Muk.Memory.FrameSupply

/-!
# The heap is physically private

Nothing in the code of the heap keeps two heap addresses from meeting in one physical
byte: that they never do follows from the allocator handing out a frame once, from `MapPage`
leaving other translations alone, and from the heap mapping only its own window.
-/

namespace Muk

namespace Machine

variable {s : Machine} {kernelEnd : Word}

/-! ## The plain allocator

As long as `AllocatePage` does not return `NULL`, a run with the checked allocator is
the run of the kernel. -/

/-- Loads and stores of the machine do not depend on the allocator. -/
theorem load8_memory (alloc alloc' : FrameAllocator) :
    (memory alloc).load8 = (memory alloc').load8 := rfl

/-- The allocator plays no role in a store. -/
theorem store8_memory (alloc alloc' : FrameAllocator) :
    (memory alloc).store8 = (memory alloc').store8 := rfl

/-- The allocator plays no role in clearing memory. -/
theorem memset_memory (alloc alloc' : FrameAllocator) :
    (memory alloc).memset = (memory alloc').memset := by
  have hstore := PagedMemory.storeBytes_congr (store8_memory alloc alloc')
  funext s a b n
  rw [PagedMemory.memset, PagedMemory.memset, hstore]

/-- Where no frame is missing, the code maps the pages of the heap as the checked version does. -/
theorem mapHeapPages_of_checked {h h' : Heap Machine} {endAddr : Word} {fuel : ℕ}
    (hrun : Heap.mapHeapPages (memory allocateChecked) h endAddr fuel = .ok h') :
    Heap.mapHeapPages (memory BitmapAllocator.allocatePage) h endAddr fuel = .ok h' := by
  induction fuel generalizing h with
  | zero => cases hrun
  | succ fuel ih =>
    rw [Heap.mapHeapPages] at hrun ⊢
    split_ifs at hrun ⊢ with hlt
    · obtain ⟨s, hmap, hrun⟩ := bind_eq_ok.mp hrun
      obtain ⟨s', hset, hrun⟩ := bind_eq_ok.mp hrun
      rw [memset_memory _ BitmapAllocator.allocatePage] at hset
      exact bind_eq_ok.mpr ⟨s, mapPage_of_checked hmap, bind_eq_ok.mpr ⟨s', hset, ih hrun⟩⟩
    · exact hrun

/-- Where no frame is missing, the code starts the heap as the checked version does. -/
theorem initialise_of_checked {h h' : Heap Machine}
    (hrun : Heap.initialise (memory allocateChecked) h = .ok h') :
    Heap.initialise (memory BitmapAllocator.allocatePage) h = .ok h' := by
  rw [Heap.initialise] at hrun ⊢
  split_ifs at hrun ⊢ with hstart
  · obtain ⟨s, hmap, hrun⟩ := bind_eq_ok.mp hrun
    rw [memset_memory _ BitmapAllocator.allocatePage] at hrun
    exact bind_eq_ok.mpr ⟨s, mapPage_of_checked hmap, hrun⟩
  · exact hrun

/-- Where no frame is missing, the code adds a block as the checked version does. -/
theorem appendBlock_of_checked {h : Heap Machine} {found size : Word} {res : Word × Heap Machine}
    (hrun : Heap.appendBlock (memory allocateChecked) h found size = .ok res) :
    Heap.appendBlock (memory BitmapAllocator.allocatePage) h found size = .ok res := by
  have hload : (memory allocateChecked).load32 =
      (memory BitmapAllocator.allocatePage).load32 := PagedMemory.load32_congr (load8_memory ..)
  have hstore : (memory allocateChecked).storeBytes =
      (memory BitmapAllocator.allocatePage).storeBytes :=
    PagedMemory.storeBytes_congr (store8_memory ..)
  simp only [Heap.appendBlock, Heap.blockSize, Heap.newBlockHeader, PagedMemory.store32, hload,
    hstore] at hrun ⊢
  obtain ⟨foundSize, hsize, hrun⟩ := bind_eq_ok.mp hrun
  obtain ⟨h1, hmap, hrun⟩ := bind_eq_ok.mp hrun
  exact bind_eq_ok.mpr ⟨foundSize, hsize, bind_eq_ok.mpr ⟨h1, mapHeapPages_of_checked hmap, hrun⟩⟩

/-- Where no frame is missing, `vmalloc` returns what the checked version does. -/
theorem vmalloc_of_checked {h : Heap Machine} {size : Word} {res : Word × Heap Machine}
    (hrun : Heap.vmalloc (memory allocateChecked) h size = .ok res) :
    Heap.vmalloc (memory BitmapAllocator.allocatePage) h size = .ok res := by
  have hload : (memory allocateChecked).load32 =
      (memory BitmapAllocator.allocatePage).load32 := PagedMemory.load32_congr (load8_memory ..)
  rw [Heap.vmalloc] at hrun ⊢
  split_ifs at hrun ⊢ with hzero
  · exact hrun
  · obtain ⟨h1, hinit, hrun⟩ := bind_eq_ok.mp hrun
    obtain ⟨found, hfound, hrun⟩ := bind_eq_ok.mp hrun
    rw [Heap.foundBlock_congr hload] at hfound
    exact bind_eq_ok.mpr ⟨h1, initialise_of_checked hinit,
      bind_eq_ok.mpr ⟨found, hfound, appendBlock_of_checked hrun⟩⟩

/-- Where no frame is missing, a heap event is that of the checked version. -/
theorem heapStep_of_checked {r r' : Heap.Run Machine} {e : Heap.Event}
    (hrun : Heap.step (memory allocateChecked) r e = .ok r') :
    Heap.step (memory BitmapAllocator.allocatePage) r e = .ok r' := by
  cases e with
  | vmalloc size =>
    rw [Heap.step] at hrun ⊢
    obtain ⟨res, hcall, hrun⟩ := bind_eq_ok.mp hrun
    rw [vmalloc_of_checked hcall]
    exact hrun
  | write i k b =>
    simp only [Heap.step, store8_memory _ BitmapAllocator.allocatePage] at hrun ⊢
    exact hrun

/-- Where no frame is missing, an event is that of the checked version. -/
theorem step_of_checked {r r' : Heap.Run Machine} {e : Event}
    (hrun : step allocateChecked r e = .ok r') :
    step BitmapAllocator.allocatePage r e = .ok r' := by
  cases e with
  | heap e => exact heapStep_of_checked hrun
  | mapPage va pa =>
    rw [step] at hrun ⊢
    obtain ⟨s, hmap, hrun⟩ := bind_eq_ok.mp hrun
    exact bind_eq_ok.mpr ⟨s, mapPage_of_checked hmap, hrun⟩

/-- Where no frame is missing, a run is that of the checked version. -/
theorem run_of_checked {r r' : Heap.Run Machine} {events : List Event}
    (hrun : runEvents (step allocateChecked) r events = .ok r') :
    runEvents (step BitmapAllocator.allocatePage) r events = .ok r' := by
  induction events generalizing r with
  | nil =>
    rw [runEvents_nil] at hrun ⊢
    exact hrun
  | cons e events ih =>
    rw [runEvents_cons] at hrun ⊢
    obtain ⟨t, hstep, hrest⟩ := bind_eq_ok.mp hrun
    exact bind_eq_ok.mpr ⟨t, step_of_checked hstep, ih hrest⟩

/-! ## The heap is private -/

/-- Every heap address below `kheap_top` has a byte of physical memory for itself, in a
frame that is neither part of the kernel image nor used by the page tables. -/
structure HeapPrivate (kernelEnd : Word) (h : Heap Machine) : Prop where
  backed : ∀ va : Word, 0xE0000000 ≤ va.toNat → va.toNat < h.kheapTop.toNat →
    ∃ p, h.mem.translate va = some p ∧ kernelEnd.toNat / 4096 < p.toNat / 4096 ∧
      frameOf p ≠ h.mem.cr3 ∧ ∀ i, h.mem.HasTable i → frameOf (h.mem.pde i) ≠ frameOf p
  inj : ∀ va va' : Word, 0xE0000000 ≤ va.toNat → va.toNat < h.kheapTop.toNat →
    0xE0000000 ≤ va'.toNat → va'.toNat < h.kheapTop.toNat →
    h.mem.translate va = h.mem.translate va' → va = va'

/-- The invariant says that the heap is private up to its top. -/
theorem heapPrivate_of_inv {h : Heap Machine} {sizes : List ℕ}
    (hinv : Heap.Inv (memory allocateChecked) (Private kernelEnd) h sizes) :
    HeapPrivate kernelEnd h := by
  have hprivate := hinv.region.ok
  have hwindow (va : Word) (hlow : 0xE0000000 ≤ va.toNat) (htop : va.toNat < h.kheapTop.toNat) :
      va ∈ Heap.window := Heap.mem_window.mpr ⟨hlow, by have := hinv.region.top_le; omega⟩
  have hmapped (va : Word) (hlow : 0xE0000000 ≤ va.toNat) (htop : va.toNat < h.kheapTop.toNat) :
      ∃ p, h.mem.translate va = some p := by
    obtain ⟨b, hb⟩ := hinv.region.mapped va (hwindow va hlow htop) htop
    obtain ⟨p, hp, -⟩ := memory_load8_eq_ok.mp hb
    exact ⟨p, hp⟩
  refine ⟨fun va hlow htop => ?_, fun va va' hlow htop hlow' htop' heq => ?_⟩
  · obtain ⟨p, hp⟩ := hmapped va hlow htop
    have hdata := hprivate.data va (hwindow va hlow htop) p hp
    have habove := hdata.above
    rw [toNat_frameOf] at habove
    exact ⟨p, hp, habove, fun h => hdata.not_table (Or.inl h),
      fun i hi heq => hdata.not_table (Or.inr ⟨i, hi.1, hi.2, heq⟩)⟩
  · obtain ⟨p, hp⟩ := hmapped va hlow htop
    exact hprivate.translate_inj (hwindow va hlow htop) (hwindow va' hlow' htop') hp (heq ▸ hp)

/-- **Heap memory is physically private.** From the state `Memory::Setup` builds, every
admissible run of heap events and other calls of `MapPage` either meets an
`AllocatePage` that returns `NULL`, or leaves every heap address below `kheap_top`
with a byte of physical memory for itself. -/
theorem heap_private (hsetup : s.SetupState kernelEnd) {events : List Event}
    (hevents : Admissible events) :
    runEvents (step allocateChecked) { heap := Heap.initial s, returned := [] } events =
        .error .outOfPages ∨
      ∃ r, runEvents (step BitmapAllocator.allocatePage)
          { heap := Heap.initial s, returned := [] } events = .ok r ∧
        HeapPrivate kernelEnd r.heap := by
  have hrun := run_inv hsetup.heapPrivate hevents
  cases hresult : runEvents (step allocateChecked)
      { heap := Heap.initial s, returned := [] } events with
  | error e =>
    rw [hresult] at hrun
    exact Or.inl (congrArg Except.error hrun)
  | ok r =>
    rw [hresult] at hrun
    exact Or.inr ⟨r, run_of_checked hresult, heapPrivate_of_inv hrun.inv⟩

/-- After boot, with 512 MiB of memory: an allocation, a page of the frame buffer, and another
allocation. No frame is missing. -/
theorem heap_private_boot : ∃ s,
    bootMachine.setup BitmapAllocator.longMemoryMap 0x200000 0xC0105000 0x105000 = .ok s ∧
      ∃ r, runEvents (step BitmapAllocator.allocatePage)
          { heap := Heap.initial s, returned := [] }
          [.heap (.vmalloc 100), .mapPage 0xD0000000 0xFD000000, .heap (.vmalloc 9000)] = .ok r ∧
        HeapPrivate 0x200000 r.heap := by
  obtain ⟨s, hsetup, hstate, hevents, r, hrun⟩ := run_supplied_boot
  rcases heap_private hstate hevents with hfail | hprivate
  · cases hfail.symm.trans hrun
  · exact ⟨s, hsetup, hprivate⟩

end Machine

end Muk
