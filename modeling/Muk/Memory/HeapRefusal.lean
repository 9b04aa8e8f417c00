import Muk.Memory.HeapRuns

/-!
# Requests that the heap cannot meet

A request for no bytes is refused after interrupts are disabled. Any other request is answered
with an address, whether or not the block fits between the last one and the end of the heap.
-/

namespace Muk

namespace Heap

variable {σ : Type} {M : PagedMemory σ Fault} {Ok : σ → Prop} {Err : Fault → Prop}
  {h h' : Heap σ} {s : σ} {sizes : List ℕ} {size addr : Word}

/-- There is no room for a block with a payload of that size behind the others. -/
def Unmeetable (sizes : List ℕ) (size : Word) : Prop :=
  size = 0 ∨ 0x10000000 < heapBytes sizes + size.toNat + 12

/-- `vmalloc` returns `NULL` and leaves the heap, memory and the interrupt flag as they were. -/
def Refuses (M : PagedMemory σ Fault) (h : Heap σ) (size : Word) : Prop :=
  vmalloc M h size = .ok (0, h)

/-- The heaps of the runs in which every request that cannot be met is one for no bytes, made
with interrupts disabled, with the payload sizes of their blocks. -/
inductive Reached (M : PagedMemory σ Fault) (s : σ) : Heap σ → List ℕ → Prop
  | initial : Reached M s (initial s) []
  | interrupts {h : Heap σ} {sizes : List ℕ} (on : Bool) :
      Reached M s h sizes → Reached M s { h with interrupts := on } sizes
  | write {h : Heap σ} {sizes : List ℕ} {x : Word} {b : Byte} {t : σ} :
      Reached M s h sizes → InPayload sizes x → M.store8 h.mem x b = .ok t →
      Reached M s { h with mem := t } sizes
  | allocate {h h' : Heap σ} {sizes : List ℕ} {size addr : Word} :
      Reached M s h sizes → ¬ Unmeetable sizes size → vmalloc M h size = .ok (addr, h') →
      Reached M s h' (sizes ++ [size.toNat])
  | refuse {h h' : Heap σ} {sizes : List ℕ} {addr : Word} :
      Reached M s h sizes → h.interrupts = false → vmalloc M h 0 = .ok (addr, h') →
      Reached M s h' sizes

/-- A request for no bytes. -/
theorem vmalloc_zero (M : PagedMemory σ Fault) (h : Heap σ) :
    vmalloc M h 0 = .ok (0, { h with interrupts := false }) := by
  rw [vmalloc]
  exact if_pos rfl

/-- A request for no bytes is refused as it should be if interrupts are disabled already. -/
theorem refuses_zero_iff : Refuses M h 0 ↔ h.interrupts = false := by
  rw [Refuses, vmalloc_zero]
  constructor
  · intro heq
    have hsame := (Prod.mk.inj (Except.ok.inj heq)).2
    rw [← hsame]
  · intro hoff
    rw [← hoff]

/-- `appendBlock` returns the address after a header at the end of the block found. -/
theorem appendBlock_addr {found : Word} (hrun : appendBlock M h found size = .ok (addr, h')) :
    ∃ foundSize, blockSize M h.mem found = .ok foundSize ∧ addr = found + foundSize + 12#32 := by
  obtain ⟨foundSize, hsize, hrun⟩ := bind_eq_ok.mp hrun
  obtain ⟨h1, -, hrun⟩ := bind_eq_ok.mp hrun
  obtain ⟨s1, -, hrun⟩ := bind_eq_ok.mp hrun
  refine ⟨foundSize, hsize, ?_⟩
  dsimp only at hrun
  split_ifs at hrun
  · obtain ⟨s2, -, hrun⟩ := bind_eq_ok.mp hrun
    exact (Prod.mk.inj (Except.ok.inj hrun)).1.symm
  · obtain ⟨s2, -, hrun⟩ := bind_eq_ok.mp hrun
    exact (Prod.mk.inj (Except.ok.inj hrun)).1.symm

/-- A request for some bytes is never answered with `NULL`. -/
theorem vmalloc_ne_null (hM : M.Lawful Ok Err window) (hinv : Inv M Ok h sizes) (hne : size ≠ 0)
    (hrun : vmalloc M h size = .ok (addr, h')) : addr ≠ 0 := by
  rw [vmalloc, if_neg hne] at hrun
  obtain ⟨h1, hinit, hrun⟩ := bind_eq_ok.mp hrun
  obtain ⟨found, hfound, hrun⟩ := bind_eq_ok.mp hrun
  have hready := (hinv.withInterrupts false).initialise hM
  rw [hinit] at hready
  obtain ⟨hready, -⟩ := hready
  rw [hready.start, hready.found] at hfound
  obtain rfl := Except.ok.inj hfound
  obtain ⟨foundSize, hsize, hend⟩ := hready.foundSize
  obtain ⟨foundSize', hsize', haddr⟩ := appendBlock_addr hrun
  obtain rfl : foundSize = foundSize' := Except.ok.inj (hsize.symm.trans hsize')
  have hblock := hready.toNat_blockAddr (Nat.le_refl sizes.length)
  have hle := hready.heapBytes_le
  change _ = 0xE0000000 + heapBytes sizes at hblock
  rw [haddr, hend]
  bv_omega

/-- Every step of such a run keeps the heap invariant. -/
theorem reached_inv (hM : M.Lawful Ok Err window) (hok : Ok s) (hreach : Reached M s h sizes) :
    Inv M Ok h sizes := by
  induction hreach with
  | initial => exact initial_inv hok
  | interrupts on _ ih => exact ih.withInterrupts on
  | write _ hx hstore ih => exact ih.stored hM hx hstore
  | @allocate h h' sizes size addr _ hmeet hrun ih =>
    rw [Unmeetable, not_or, Nat.not_lt] at hmeet
    have hpos : 1 ≤ size.toNat := by
      rw [Nat.one_le_iff_ne_zero]
      exact fun hzero => hmeet.1 (BitVec.eq_of_toNat_eq hzero)
    have hcall := vmalloc_spec hM ih hpos hmeet.2
    rw [BitVec.ofNat_toNat, BitVec.setWidth_eq, hrun] at hcall
    exact hcall.inv
  | refuse _ _ hrun ih =>
    rw [vmalloc_zero] at hrun
    obtain ⟨-, rfl⟩ := Prod.mk.inj (Except.ok.inj hrun)
    exact ih.withInterrupts false

/-- **When a request that cannot be met is refused cleanly.** In every run whose unmeetable
requests are for no bytes and made with interrupts disabled, the next request that cannot be met
is refused, with nothing changed, if and only if it is such a one, too. -/
theorem vmalloc_refuses_iff (hM : M.Lawful Ok Err window) (hok : Ok s)
    (hreach : Reached M s h sizes) (hsize : Unmeetable sizes size) :
    Refuses M h size ↔ size = 0 ∧ h.interrupts = false := by
  by_cases hzero : size = 0
  · subst hzero
    rw [refuses_zero_iff]
    exact (and_iff_right rfl).symm
  · refine iff_of_false (fun hrefuses => ?_) fun h => hzero h.1
    exact vmalloc_ne_null hM (reached_inv hM hok hreach) hzero hrefuses rfl

/-- Memory of which no page is mapped. -/
def unmappedMemory : PagedMemory.Flat := { bytes := fun _ => 0xAA, mapped := fun _ => false }

/-- Before the first request, with interrupts disabled, one for no bytes is refused cleanly. -/
theorem vmalloc_refuses_disabled : Refuses (PagedMemory.flat Fault.pageFault)
    { initial unmappedMemory with interrupts := false } 0 :=
  (vmalloc_refuses_iff (PagedMemory.flat_lawful Fault.pageFault window) trivial
    (.interrupts false .initial) (Or.inl rfl)).mpr ⟨rfl, rfl⟩

/-- With interrupts enabled, a request for no bytes disables them, and one for all bytes of the
address space is answered with an address. -/
theorem vmalloc_not_refused :
    ¬ Refuses (PagedMemory.flat Fault.pageFault) (initial unmappedMemory) 0 ∧
      ¬ Refuses (PagedMemory.flat Fault.pageFault) (initial unmappedMemory) 0xFFFFFFFF := by
  constructor
  · rw [refuses_zero_iff]
    decide
  · intro hrefuses
    exact vmalloc_ne_null (PagedMemory.flat_lawful Fault.pageFault window)
      (initial_inv trivial) (by decide) hrefuses rfl

end Heap

end Muk
