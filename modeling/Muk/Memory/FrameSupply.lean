import Muk.Memory.HeapMachine
import Muk.Memory.PhysManagerCount

/-!
# Enough frames

`AllocatePage` returns `NULL` only when no frame is free. The heap has room for 65536 pages and
the directory for 1024 tables, and each of them takes one frame at most once. So a run that starts
with more free frames than these, and one for each event of the run, never meets a `NULL`.
-/

namespace Muk

namespace Machine

variable {s t : Machine} {kernelEnd : Word} {i j : EntryIndex} {pa : Word} {n : ℕ}

/-! ## What can still be asked for -/

/-- The pages of the heap, by their numbers, that are not mapped. -/
def unmapped (s : Machine) : Set ℕ :=
  {k | ∃ va ∈ Heap.window, va.toNat / 4096 = k ∧ s.translate va = none}

/-- The directory entries, by their numbers, that point to no page table. -/
def missing (s : Machine) : Set ℕ := {k | ∃ i : EntryIndex, i.toNat = k ∧ ¬ s.HasTable i}

/-- There is a free frame for every page of the heap that is not mapped and every table that is
missing, for `n` pages outside the heap, and two more. -/
def Supplied (n : ℕ) (s : Machine) : Prop :=
  s.unmapped.ncard + s.missing.ncard + n + 2 ≤ s.physManager.free.ncard

/-- The pages of the heap have the numbers from `0xE0000` up to `0xF0000`. -/
theorem unmapped_subset (s : Machine) : s.unmapped ⊆ Set.Iio 0xF0000 \ Set.Iio 0xE0000 := by
  rintro k ⟨va, hva, rfl, -⟩
  rw [Heap.mem_window] at hva
  simp only [Set.mem_sdiff, Set.mem_Iio]
  omega

/-- The directory has 1024 entries, so no more tables than these can be missing. -/
theorem missing_subset (s : Machine) : s.missing ⊆ Set.Iio 1024 := by
  rintro k ⟨i, rfl, -⟩
  exact i.isLt

/-- Finitely many pages of the heap are not mapped. -/
theorem finite_unmapped (s : Machine) : s.unmapped.Finite :=
  ((Set.finite_Iio 0xF0000).subset Set.sdiff_subset).subset s.unmapped_subset

/-- Finitely many tables are missing, as the directory has only so many entries. -/
theorem finite_missing (s : Machine) : s.missing.Finite :=
  (Set.finite_Iio 1024).subset s.missing_subset

/-- The heap and the directory never ask for more than 66560 frames. -/
theorem supplied_of_le (h : 66562 + n ≤ s.physManager.free.ncard) : s.Supplied n := by
  have hpages := Set.ncard_le_ncard s.unmapped_subset ((Set.finite_Iio _).subset Set.sdiff_subset)
  have htables := Set.ncard_le_ncard s.missing_subset (Set.finite_Iio _)
  rw [Set.ncard_sdiff (Set.Iio_subset_Iio (by omega)) (Set.finite_Iio _),
    BitmapAllocator.ncard_Iio, BitmapAllocator.ncard_Iio] at hpages
  rw [BitmapAllocator.ncard_Iio] at htables
  rw [Supplied]
  omega

/-- A supply for some pages is one for fewer. -/
theorem Supplied.mono {m : ℕ} (h : s.Supplied n) (hle : m ≤ n) : s.Supplied m := by
  rw [Supplied] at h ⊢
  omega

/-- With a supply, at least two frames are free, which is what `MapPage` takes at most. -/
theorem Supplied.not_subsingleton (h : s.Supplied n) :
    ¬ s.physManager.free.Subsingleton := by
  intro hsub
  have hle := (Set.ncard_le_one s.physManager.finite_free).mpr fun a ha b hb => hsub ha hb
  rw [Supplied] at h
  omega

/-- No page is lost where translations are kept. -/
theorem unmapped_mono (h : ∀ va p, s.translate va = some p → t.translate va = some p) :
    t.unmapped ⊆ s.unmapped := by
  rintro k ⟨va, hva, hk, hnone⟩
  refine ⟨va, hva, hk, ?_⟩
  cases hp : s.translate va with
  | none => rfl
  | some p =>
    rw [h va p hp] at hnone
    cases hnone

/-- No table is lost where tables are kept. -/
theorem missing_mono (h : ∀ k, s.HasTable k → t.HasTable k) : t.missing ⊆ s.missing := by
  rintro k ⟨i, hk, hi⟩
  exact ⟨i, hk, fun htable => hi (h i htable)⟩

/-- Frames are left for what is still to be mapped if no frame is taken. -/
theorem Supplied.keep (h : s.Supplied n) (hpages : t.unmapped ⊆ s.unmapped)
    (htables : t.missing ⊆ s.missing) (hfree : t.physManager.free = s.physManager.free) :
    t.Supplied n := by
  have hle := Set.ncard_le_ncard hpages s.finite_unmapped
  have hle' := Set.ncard_le_ncard htables s.finite_missing
  rw [Supplied] at h ⊢
  rw [hfree]
  omega

/-! ## The steps of `MapPage` -/

/-- One frame fewer is free after it was taken. -/
theorem ncard_free_of_taken {f : ℕ} (hf : f ∈ s.physManager.free)
    (hfree : t.physManager.free = s.physManager.free \ {f}) :
    t.physManager.free.ncard + 1 = s.physManager.free.ncard := by
  rw [hfree]
  exact Set.ncard_sdiff_singleton_add_one hf s.physManager.finite_free

/-- A table takes one frame, and is missing no more. -/
theorem TableStep.supplied (hstep : TableStep s i t) (hgood : s.Good) (hi : i ≠ 1023)
    (hs : s.Supplied n) : t.Supplied n := by
  have htable := (hstep.good hgood hi).2
  have hkept := missing_mono fun _ hk => hstep.hasTable hgood hk
  cases hstep with
  | present => exact hs
  | @create f phys habsent hf hphys =>
    have hpages : (s.withTable i f phys).unmapped ⊆ s.unmapped :=
      unmapped_mono fun _ _ => translate_withTable_some hgood habsent hf
    have hmissing : i.toNat ∈ s.missing := ⟨i, rfl, fun h => habsent h.1⟩
    have htables : (s.withTable i f phys).missing ⊆ s.missing \ {i.toNat} := by
      rintro k hk
      refine ⟨hkept hk, ?_⟩
      rintro rfl
      obtain ⟨i', heq, hi'⟩ := hk
      exact hi' (BitVec.eq_of_toNat_eq heq ▸ htable)
    have hle := Set.ncard_le_ncard hpages s.finite_unmapped
    have hle' := Set.ncard_le_ncard htables (s.finite_missing.subset Set.sdiff_subset)
    have hone := Set.ncard_sdiff_singleton_add_one hmissing s.finite_missing
    have hspent := ncard_free_of_taken (t := s.withTable i f phys) hf hphys
    rw [Supplied] at hs ⊢
    omega

/-- A page of the heap takes one frame, and is mapped then. -/
theorem PageStep.supplied_heap {va : Word} (h : s.Private kernelEnd) (hva : va ∈ Heap.window)
    (hstep : PageStep s (pdIndex va) (ptIndex va) 0 t) (htable : s.HasTable (pdIndex va))
    (hs : s.Supplied n) : t.Supplied n := by
  obtain ⟨hi, -⟩ := pdIndex_of_window hva
  have hmapped := (h.pageStep_heap hva hstep htable).2
  have hkept := unmapped_mono fun _ _ => hstep.translate_some
  have htables := missing_mono fun _ => hstep.hasTable h.good hi htable
  cases hstep with
  | present => exact hs
  | given _ hne => exact absurd rfl hne
  | @fresh f phys habsent _ hf hphys =>
    have hpage : va.toNat / 4096 ∈ s.unmapped :=
      ⟨va, hva, rfl, (translate_eq_none_iff va htable).mpr habsent⟩
    have hpages : (s.withPage (frameOf (s.pde (pdIndex va))) (ptIndex va) (physAddr f 0)
        phys).unmapped ⊆ s.unmapped \ {va.toNat / 4096} := by
      rintro k hk
      refine ⟨hkept hk, ?_⟩
      rintro rfl
      obtain ⟨x, hx, heq, hnone⟩ := hk
      obtain ⟨p, hp⟩ := hmapped x hx (BitVec.eq_of_toNat_eq (by simpa using heq))
      rw [hnone] at hp
      cases hp
    have hle := Set.ncard_le_ncard hpages (s.finite_unmapped.subset Set.sdiff_subset)
    have hle' := Set.ncard_le_ncard htables s.finite_missing
    have hone := Set.ncard_sdiff_singleton_add_one hpage s.finite_unmapped
    have hspent := ncard_free_of_taken (t := s.withPage (frameOf (s.pde (pdIndex va))) (ptIndex va)
      (physAddr f 0) phys) hf hphys
    rw [Supplied] at hs ⊢
    omega

/-- A page outside the heap takes one frame at most. -/
theorem PageStep.supplied_outside (hstep : PageStep s i j pa t) (hgood : s.Good) (hi : i ≠ 1023)
    (htable : s.HasTable i) (hs : s.Supplied (n + 1)) : t.Supplied n := by
  have hkept := unmapped_mono fun _ _ => hstep.translate_some
  have htables := missing_mono fun _ => hstep.hasTable hgood hi htable
  cases hstep with
  | present => exact hs.mono n.le_succ
  | given => exact (hs.mono n.le_succ).keep hkept htables rfl
  | @fresh f phys _ _ hf hphys =>
    have hle := Set.ncard_le_ncard hkept s.finite_unmapped
    have hle' := Set.ncard_le_ncard htables s.finite_missing
    have hspent := ncard_free_of_taken (t := s.withPage (frameOf (s.pde i)) j (physAddr f 0) phys)
      hf hphys
    rw [Supplied] at hs ⊢
    omega

/-- A byte written to the heap takes no frame. -/
theorem Supplied.store8 (h : s.Private kernelEnd) {a : Word} {b : Byte} (ha : a ∈ Heap.window)
    (hrun : (memory allocateChecked).store8 s a b = .ok t) (hs : s.Supplied n) : t.Supplied n := by
  cases hp : s.translate a with
  | none => simp [memory, hp] at hrun
  | some p =>
    have hwritten : t = { s with ram := Muk.store8 s.ram p b } := by
      simpa [memory, hp] using hrun.symm
    subst hwritten
    have hentry := h.entry_store8 ha hp b
    have hpde (k : EntryIndex) :
        ({ s with ram := Muk.store8 s.ram p b } : Machine).pde k = s.pde k :=
      hentry _ k (Or.inl rfl)
    refine hs.keep (unmapped_mono fun va q hq => (translate_of_entries hentry va).trans hq)
      (missing_mono fun k hk => ?_) rfl
    rw [HasTable, hpde]
    exact hk

/-! ## Runs -/

/-- With a supply of frames, the machine is a memory whose pages can always be mapped. -/
theorem memory_lawful_supplied (kernelEnd : Word) (n : ℕ) :
    (memory allocateChecked).Lawful (fun s => Private kernelEnd s ∧ Supplied n s)
      (fun _ => False) Heap.window := by
  have hsteps {s : Machine} {va : Word} (h : s.Private kernelEnd) (hs : s.Supplied n)
      (hva : va ∈ Heap.window) : ∃ s', mapPageWith allocateChecked s va 0 = .ok s' ∧
        s'.Supplied n := by
    obtain ⟨hi, hi'⟩ := pdIndex_of_window hva
    rcases mapPageWith_steps 0 allocateChecked_honest h.good h.zero_not_free hi
      (h.not_large _ hi') with ⟨-, hfew⟩ | ⟨t, s', htable, hpage, hrun⟩
    · exact absurd hfew hs.not_subsingleton
    · exact ⟨s', hrun, hpage.supplied_heap (h.tableStep htable hi) hva (htable.good h.good hi).2
        (htable.supplied h.good hi hs)⟩
  refine ((memory_lawful kernelEnd).strengthen
    (fun h ha hrun hs => Supplied.store8 h ha hrun hs) fun h hva hrun hs => ?_).of_no_error
    fun ⟨h, hs⟩ hva hfail => ?_
  · obtain ⟨s', hok, hs'⟩ := hsteps h hs hva
    rwa [← Except.ok.inj (hok.symm.trans hrun)]
  · obtain ⟨s', hok, -⟩ := hsteps h hs hva
    cases hok.symm.trans hfail

/-- The run invariant with a supply of frames for `n` pages outside the heap. -/
def SuppliedInv (kernelEnd : Word) (n : ℕ) (r : Heap.Run Machine) (sizes : List ℕ) : Prop :=
  Heap.RunInv (memory allocateChecked) (fun s => Private kernelEnd s ∧ Supplied n s) r sizes

/-- The step lemma with a supply of frames: no call of `AllocatePage` returns `NULL`. -/
theorem SuppliedInv.step {r : Heap.Run Machine} {events before after : List Event} {e : Event}
    (hevents : Admissible events) (heq : events = before ++ e :: after)
    (hr : SuppliedInv kernelEnd (n + 1) r (Heap.sizesOf (heapEvents before))) :
    Outcome (fun _ => False)
      (fun r' => SuppliedInv kernelEnd n r' (Heap.sizesOf (heapEvents (before ++ [e]))))
      (step allocateChecked r e) := by
  obtain ⟨h, hs⟩ := hr.inv.region.ok
  cases e with
  | heap e =>
    have hsplit : heapEvents events = heapEvents before ++ e :: heapEvents after := by
      simp [heq, heapEvents]
    rw [heapEvents_append]
    exact Heap.step_inv (memory_lawful_supplied kernelEnd n) hevents.heap hsplit
      (Heap.RunInv.of_ok hr ⟨h, hs.mono n.le_succ⟩)
  | mapPage va pa =>
    obtain ⟨hva, hkernel, hi⟩ := hevents.outside va pa (by simp [heq])
    rw [heapEvents_append, show heapEvents [.mapPage va pa] = [] from rfl, List.append_nil]
    rcases mapPageWith_steps pa allocateChecked_honest h.good h.zero_not_free hi
      (h.not_large _ hkernel) with ⟨-, hfew⟩ | ⟨t, s', htable, hpage, hrun⟩
    · exact absurd hfew hs.not_subsingleton
    · obtain ⟨hgood, hhas⟩ := htable.good h.good hi
      have hs' := (h.tableStep htable hi).pageStep_outside hi hpage hhas
        fun x hx => pdIndex_ne_of_not_mem_window hva hx
      simp only [Machine.step, hrun, bind, Except.bind, outcome_ok]
      have ht := htable.supplied h.good hi hs
      have hr' : SuppliedInv kernelEnd n r _ := Heap.RunInv.of_ok hr ⟨h, hs.mono n.le_succ⟩
      exact ⟨hr'.inv.extend ⟨hs', hpage.supplied_outside hgood hi hhas ht⟩
        fun x hx b hb => memory_load8_of_steps h hi htable hpage hx hb, hr.returned⟩

/-- **Enough frames.** From the state `Memory::Setup` builds, with a free frame for every page of
the heap, every table and every event of an admissible run, each call of the run returns: no
`AllocatePage` returns `NULL`. -/
theorem run_supplied (hsetup : s.SetupState kernelEnd) {events : List Event}
    (hevents : Admissible events) (hfree : 66562 + events.length ≤ s.physManager.free.ncard) :
    ∃ r, runEvents (step allocateChecked) { heap := Heap.initial s, returned := [] } events =
      .ok r := by
  have hrun : Outcome (fun _ => False)
      (fun r => SuppliedInv kernelEnd (events.length - events.length) r
        (Heap.sizesOf (heapEvents events)))
      (runEvents (step allocateChecked) { heap := Heap.initial s, returned := [] } events) := by
    refine runEvents_outcome (fun before r => SuppliedInv kernelEnd (events.length - before.length)
      r (Heap.sizesOf (heapEvents before)))
      ⟨Heap.initial_inv ⟨hsetup.heapPrivate, supplied_of_le hfree⟩, rfl⟩
      fun before e after r heq hr => ?_
    have hlength : events.length = before.length + (after.length + 1) := by simp [heq]
    have hnow : events.length - before.length = after.length + 1 := by omega
    have hnext : events.length - (before ++ [e]).length = after.length := by
      rw [List.length_append, List.length_singleton]
      omega
    rw [hnow] at hr
    rw [hnext]
    exact SuppliedInv.step hevents heq hr
  cases hresult : runEvents (step allocateChecked) { heap := Heap.initial s, returned := [] }
      events with
  | error e =>
    rw [hresult] at hrun
    exact hrun.elim
  | ok r => exact ⟨r, rfl⟩

/-- After boot, with 512 MiB of memory, there are frames for an allocation, a page of the frame
buffer, and another allocation. -/
theorem run_supplied_boot : ∃ s,
    bootMachine.setup BitmapAllocator.longMemoryMap 0x200000 0xC0105000 0x105000 = .ok s ∧
      s.SetupState 0x200000 ∧
      Admissible [.heap (.vmalloc 100), .mapPage 0xD0000000 0xFD000000, .heap (.vmalloc 9000)] ∧
      ∃ r, runEvents (step allocateChecked) { heap := Heap.initial s, returned := [] }
        [.heap (.vmalloc 100), .mapPage 0xD0000000 0xFD000000, .heap (.vmalloc 9000)] = .ok r := by
  obtain ⟨s, hsetup, hstate, hfree⟩ :=
    setup_spec bootMachine_booted BitmapAllocator.longMemoryMap_low (by decide)
  have hheap : Heap.Admissible [.vmalloc 100, .vmalloc 9000] :=
    (Heap.Admissible.nil.concat (e := .vmalloc 100) (show 1 ≤ 100 by omega) (by decide)).concat
      (e := .vmalloc 9000) (show 1 ≤ 9000 by omega) (by decide)
  have hevents : Admissible
      [.heap (.vmalloc 100), .mapPage 0xD0000000 0xFD000000, .heap (.vmalloc 9000)] := by
    refine ⟨hheap, fun va pa hmem => ?_⟩
    obtain ⟨rfl, rfl⟩ : va = 0xD0000000 ∧ pa = 0xFD000000 := by simpa using hmem
    exact ⟨by rw [Heap.mem_window]; decide, by decide, by decide⟩
  have hmany := BitmapAllocator.ncard_longMemoryMap
  rw [← hfree] at hmany
  exact ⟨s, hsetup, hstate, hevents,
    run_supplied hstate hevents (by simp only [List.length]; omega)⟩

end Machine

end Muk
