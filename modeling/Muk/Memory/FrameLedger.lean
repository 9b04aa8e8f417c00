import Muk.Memory.HeapPrivate

/-!
# Where the frames go

The kernel never gives a frame back and never changes a mapping that it has made. So a
translation that the processor has seen once stays right, although the code flushes no
translation; and each frame that was free after boot is still free, holds a page table, or
lies behind some page.
-/

namespace Muk

namespace Machine

variable {s t u : Machine} {i j : EntryIndex} {pa : Word} {kernelEnd : Word}

/-- The frame holds the directory or a page table, or some page outside the recursive window
is mapped to it. -/
def InUse (s : Machine) (f : Frame) : Prop :=
  IsTableFrame s.ram s.cr3 f ∨
    ∃ va p, pdIndex va ≠ 1023 ∧ s.translate va = some p ∧ frameOf p = f

/-- A state that the kernel may reach from another one: mappings and page tables are kept,
and frames that are no longer free are in use. -/
structure Later (s t : Machine) : Prop where
  translate : ∀ va p, s.translate va = some p → t.translate va = some p
  table : ∀ f, IsTableFrame s.ram s.cr3 f → IsTableFrame t.ram t.cr3 f
  free : t.physManager.free ⊆ s.physManager.free
  used : ∀ f : Frame, f.toNat ∈ s.physManager.free → f.toNat ∈ t.physManager.free ∨ t.InUse f

/-- Nothing has happened between a state and itself. -/
theorem Later.refl (s : Machine) : Later s s :=
  ⟨fun _ _ h => h, fun _ h => h, le_rfl, fun _ h => Or.inl h⟩

/-- A frame in use stays in use. -/
theorem Later.inUse (h : Later s t) {f : Frame} (hf : s.InUse f) : t.InUse f := by
  rcases hf with htable | ⟨va, p, hva, hp, hframe⟩
  · exact Or.inl (h.table f htable)
  · exact Or.inr ⟨va, p, hva, h.translate va p hp, hframe⟩

/-- What comes after a later state comes after the first one. -/
theorem Later.trans (h : Later s t) (h' : Later t u) : Later s u where
  translate va p hp := h'.translate va p (h.translate va p hp)
  table f hf := h'.table f (h.table f hf)
  free := h'.free.trans h.free
  used f hf := by
    rcases h.used f hf with hfree | hused
    · exact h'.used f hfree
    · exact Or.inr (h'.inUse hused)

/-! ## One call -/

/-- Entries of the directory that point to a table in one state and in the other one. -/
theorem isTableFrame_mono (s t : Machine) {f : Frame} (hcr3 : t.cr3 = s.cr3)
    (hpde : ∀ k, present (s.pde k) → t.pde k = s.pde k) (hf : IsTableFrame s.ram s.cr3 f) :
    IsTableFrame t.ram t.cr3 f := by
  rcases hf with hdir | ⟨k, hp, hl, hframe⟩
  · exact Or.inl (hdir.trans hcr3.symm)
  · have hsame : entry t.ram t.cr3 k = entry s.ram s.cr3 k := hpde k hp
    exact Or.inr ⟨k, by rw [hsame]; exact hp, by rw [hsame]; exact hl, by rw [hsame]; exact hframe⟩

/-- The first half of `MapPage`: a new table takes its frame from the free ones. -/
theorem TableStep.later (hstep : TableStep s i t) (hgood : s.Good) : Later s t := by
  cases hstep with
  | present => exact .refl s
  | @create f phys habsent hf hphys =>
    have hne : f ≠ s.cr3 := fun h => hgood.dir_taken (h ▸ hf)
    have hpde (k : EntryIndex) := pde_withTable i phys hne k
    obtain ⟨hp, hl, hframe⟩ := newTable_spec f
    have hnew : (s.withTable i f phys).pde i = tableEntry (physAddr f 0) := by
      rw [hpde, if_pos rfl]
    have hold (k : EntryIndex) (hk : Muk.present (s.pde k)) :
        (s.withTable i f phys).pde k = s.pde k := by
      rw [hpde, if_neg]
      rintro rfl
      exact habsent hk
    refine ⟨fun va p hva => translate_withTable_some hgood habsent hf hva,
      fun g hg => isTableFrame_mono s _ rfl hold hg, ?_, fun g hg => ?_⟩
    · exact hphys.le.trans Set.sdiff_subset
    · by_cases hgf : g = f
      · subst hgf
        refine Or.inr (Or.inl (Or.inr ⟨i, ?_⟩))
        rw [show entry _ _ i = tableEntry (physAddr g 0) from hnew]
        exact ⟨hp, by simp [hl], hframe⟩
      · refine Or.inl ?_
        change g.toNat ∈ phys.free
        rw [hphys]
        exact ⟨hg, fun h => hgf (BitVec.eq_of_toNat_eq h)⟩

/-- The second half of `MapPage`: a new page takes its frame from the free ones, or a frame
that the caller gives. -/
theorem PageStep.later {va : Word} (hstep : PageStep s (pdIndex va) (ptIndex va) pa t)
    (hgood : s.Good) (hi : pdIndex va ≠ 1023) (htable : s.HasTable (pdIndex va)) : Later s t := by
  have hsub := hstep.free
  have hkeep {f : Frame} (hf : IsTableFrame s.ram s.cr3 f) : IsTableFrame t.ram t.cr3 f :=
    isTableFrame_mono s t hstep.cr3 (fun k _ => hstep.pde hgood hi htable k) hf
  cases hstep with
  | present => exact .refl s
  | given habsent =>
    exact ⟨fun _ _ h => translate_withPage_some habsent h, fun _ => hkeep, hsub,
      fun _ h => Or.inl h⟩
  | @fresh f phys habsent _ hf hphys =>
    refine ⟨fun _ _ h => translate_withPage_some habsent h, fun _ => hkeep, hsub, fun g hg => ?_⟩
    by_cases hgf : g = f
    · subst hgf
      exact Or.inr (Or.inr ⟨va, _, hi, translate_withPage_frame hgood g phys hi htable rfl,
        frameOf_physAddr g (by omega)⟩)
    · refine Or.inl ?_
      change g.toNat ∈ phys.free
      rw [hphys]
      exact ⟨hg, fun h => hgf (BitVec.eq_of_toNat_eq h)⟩

/-- A call of `MapPage` that returns. -/
theorem mapPageWith_later (h : s.Private kernelEnd) {va : Word} (hi : pdIndex va ≠ 1023)
    (hkernel : pdIndex va ≠ 768) (hrun : mapPageWith allocateChecked s va pa = .ok t) :
    Later s t := by
  rcases mapPageWith_steps pa allocateChecked_honest h.good h.zero_not_free hi
    (h.not_large _ hkernel) with ⟨hfail, -⟩ | ⟨mid, t', htable, hpage, hok⟩
  · rw [hfail] at hrun
    cases hrun
  · obtain rfl : t' = t := Except.ok.inj (hok.symm.trans hrun)
    obtain ⟨hgood, hhas⟩ := htable.good h.good hi
    exact (htable.later h.good).trans (hpage.later hgood hi hhas)

/-- A byte written to the heap. -/
theorem memory_store8_later (h : s.Private kernelEnd) {a : Word} {b : Byte} (ha : a ∈ Heap.window)
    (hrun : (memory allocateChecked).store8 s a b = .ok t) : Later s t := by
  cases hp : s.translate a with
  | none => simp [memory, hp] at hrun
  | some p =>
    have hwritten : t = { s with ram := store8 s.ram p b } := by
      simpa [memory, hp] using hrun.symm
    subst hwritten
    have hentry := h.entry_store8 ha hp b
    have hpde (k : EntryIndex) (_ : Muk.present (s.pde k)) :
        ({ s with ram := store8 s.ram p b } : Machine).pde k = s.pde k := hentry _ k (Or.inl rfl)
    exact ⟨fun va q hq => (translate_of_entries hentry va).trans hq,
      fun f hf => isTableFrame_mono s _ rfl hpde hf, le_rfl, fun f hf => Or.inl hf⟩

/-! ## Runs -/

/-- The heap as a memory whose states come after a given one. -/
theorem memory_lawful_later (kernelEnd : Word) (s : Machine) :
    (memory allocateChecked).Lawful (fun t => Private kernelEnd t ∧ Later s t)
      (fun e => e = .outOfPages) Heap.window :=
  (memory_lawful kernelEnd).strengthen
    (fun h ha hrun hlater => hlater.trans (memory_store8_later h ha hrun))
    fun h hva hrun hlater => hlater.trans
      (mapPageWith_later h (pdIndex_of_window hva).1 (pdIndex_of_window hva).2 hrun)

/-- The run invariant with what comes after a given state. -/
def LaterInv (kernelEnd : Word) (s : Machine) (r : Heap.Run Machine) (sizes : List ℕ) : Prop :=
  Heap.RunInv (memory allocateChecked) (fun t => Private kernelEnd t ∧ Later s t) r sizes

/-- A run that keeps the invariant may be followed from any of its states on. -/
theorem LaterInv.start {r : Heap.Run Machine} {sizes : List ℕ}
    (hr : Heap.RunInv (memory allocateChecked) (Private kernelEnd) r sizes) :
    LaterInv kernelEnd r.heap.mem r sizes :=
  hr.of_ok ⟨hr.inv.region.ok, .refl _⟩

/-- The step lemma: an event of an admissible run leads to a later state, unless it finds no
frame. -/
theorem LaterInv.step {r : Heap.Run Machine} {events before after : List Event} {e : Event}
    (hevents : Admissible events) (heq : events = before ++ e :: after)
    (hr : LaterInv kernelEnd s r (Heap.sizesOf (heapEvents before))) :
    Outcome (fun e => e = .outOfPages)
      (fun r' => LaterInv kernelEnd s r' (Heap.sizesOf (heapEvents (before ++ [e]))))
      (step allocateChecked r e) := by
  cases e with
  | heap e =>
    have hsplit : heapEvents events = heapEvents before ++ e :: heapEvents after := by
      simp [heq, heapEvents]
    rw [heapEvents_append]
    exact Heap.step_inv (memory_lawful_later kernelEnd s) hevents.heap hsplit hr
  | mapPage va pa =>
    obtain ⟨hva, hkernel, hi⟩ := hevents.outside va pa (by simp [heq])
    rw [heapEvents_append, show heapEvents [.mapPage va pa] = [] from rfl, List.append_nil]
    obtain ⟨h, hlater⟩ := hr.inv.region.ok
    rcases mapPageWith_steps pa allocateChecked_honest h.good h.zero_not_free hi
      (h.not_large _ hkernel) with ⟨hfail, -⟩ | ⟨t, s', htable, hpage, hrun⟩
    · simp only [Machine.step, hfail, bind, Except.bind, outcome_error]
    · have hs' := (h.tableStep htable hi).pageStep_outside hi hpage (htable.good h.good hi).2
        fun x hx => pdIndex_ne_of_not_mem_window hva hx
      simp only [Machine.step, hrun, bind, Except.bind, outcome_ok]
      exact ⟨hr.inv.extend ⟨hs', hlater.trans (mapPageWith_later h hi hkernel hrun)⟩
        fun x hx b hb => memory_load8_of_steps h hi htable hpage hx hb, hr.returned⟩

/-- The run lemma: the rest of an admissible run. -/
theorem LaterInv.run {r : Heap.Run Machine} {before after : List Event}
    (hevents : Admissible (before ++ after))
    (hr : LaterInv kernelEnd s r (Heap.sizesOf (heapEvents before))) :
    Outcome (fun e => e = .outOfPages)
      (fun r' => LaterInv kernelEnd s r' (Heap.sizesOf (heapEvents (before ++ after))))
      (runEvents (Machine.step allocateChecked) r after) :=
  runEvents_outcome (fun mid r' => LaterInv kernelEnd s r'
      (Heap.sizesOf (heapEvents (before ++ mid)))) (by rwa [List.append_nil])
    fun mid e rest t heq ht => by
      have hsplit : before ++ after = (before ++ mid) ++ e :: rest := by simp [heq]
      rw [← List.append_assoc]
      exact LaterInv.step hevents hsplit ht

/-- The first part of an admissible run is admissible. -/
theorem Admissible.left {before after : List Event} (h : Admissible (before ++ after)) :
    Admissible before := by
  obtain ⟨⟨hallowed, hfits⟩, houtside⟩ := h
  rw [heapEvents_append] at hallowed hfits
  refine ⟨⟨fun before' e after' heq => ?_, ?_⟩, fun va pa hmem => ?_⟩
  · exact hallowed before' e (after' ++ heapEvents after) (by simp [heq])
  · rw [Heap.sizesOf_append] at hfits
    exact Nat.le_trans (Heap.heapBytes_le_append _ _) hfits
  · exact houtside va pa (List.mem_append_left _ hmem)

/-! ## The ledger -/

/-- What became of the frames that were free in one state, in a state after it. -/
structure Ledger (s t : Machine) : Prop where
  /-- No frame is lost. -/
  accounted : ∀ f : Frame, f.toNat ∈ s.physManager.free → f.toNat ∈ t.physManager.free ∨ t.InUse f
  /-- A free frame holds no page table and lies behind no page of the heap. -/
  not_table : ∀ f : Frame, f.toNat ∈ t.physManager.free → ¬ IsTableFrame t.ram t.cr3 f
  not_heap : ∀ f : Frame, f.toNat ∈ t.physManager.free →
    ∀ va ∈ Heap.window, ∀ p, t.translate va = some p → frameOf p ≠ f

/-- A later private state has all frames accounted for. -/
theorem Private.ledger (h : t.Private kernelEnd) (hlater : Later s t) : Ledger s t where
  accounted := hlater.used
  not_table _ hf := h.good.not_isTableFrame hf
  not_heap _ hf va hva p hp heq := (h.data va hva p hp).taken (heq ▸ hf)

/-- **Mappings last and no frame is lost.** Split an admissible run from the state
`Memory::Setup` builds into two parts. Unless it meets an `AllocatePage` that returns `NULL`,
every translation that succeeds after the first part gives the same address after the second
one, so a translation that the processor keeps in between is never stale; and at the end each
frame that was free at first is free, holds a page table, or lies behind a page. -/
theorem mappings_last (hsetup : s.SetupState kernelEnd) {before after : List Event}
    (hevents : Admissible (before ++ after)) :
    runEvents (step allocateChecked) { heap := Heap.initial s, returned := [] }
        (before ++ after) = .error .outOfPages ∨
      ∃ r r', runEvents (step BitmapAllocator.allocatePage)
          { heap := Heap.initial s, returned := [] } before = .ok r ∧
        runEvents (step BitmapAllocator.allocatePage) r after = .ok r' ∧
        (∀ va p, r.heap.mem.translate va = some p → r'.heap.mem.translate va = some p) ∧
        Ledger s r'.heap.mem := by
  let start : Heap.Run Machine := { heap := Heap.initial s, returned := [] }
  have hinit : Heap.RunInv (memory allocateChecked) (Private kernelEnd) start [] :=
    ⟨Heap.initial_inv hsetup.heapPrivate, rfl⟩
  have hsplit (alloc : FrameAllocator) : runEvents (step alloc) start (before ++ after) =
      runEvents (step alloc) start before >>= fun r => runEvents (step alloc) r after :=
    List.foldlM_append
  have hinv := run_inv hsetup.heapPrivate hevents.left
  have hfirst := @LaterInv.run s kernelEnd start [] before hevents.left (LaterInv.start hinit)
  change Outcome _ _ (runEvents (step allocateChecked) start before) at hinv hfirst
  change runEvents (step allocateChecked) start (before ++ after) = _ ∨ _
  rw [hsplit]
  cases hrun : runEvents (step allocateChecked) start before with
  | error e =>
    rw [hrun] at hfirst
    exact Or.inl (congrArg Except.error hfirst)
  | ok r =>
    rw [hrun, outcome_ok] at hinv hfirst
    have hsecond := LaterInv.run hevents (LaterInv.start hinv)
    rw [ok_bind]
    cases hrun' : runEvents (step allocateChecked) r after with
    | error e =>
      rw [hrun'] at hsecond
      exact Or.inl (congrArg Except.error hsecond)
    | ok r' =>
      rw [hrun', outcome_ok] at hsecond
      obtain ⟨-, hlater⟩ := hfirst.inv.region.ok
      obtain ⟨hprivate, hlater'⟩ := hsecond.inv.region.ok
      exact Or.inr ⟨r, r', run_of_checked hrun, run_of_checked hrun', hlater'.translate,
        hprivate.ledger (hlater.trans hlater')⟩

/-- After boot, with 512 MiB of memory: an allocation and a page of the frame buffer, and then
another allocation. No frame is missing. -/
theorem mappings_last_boot : ∃ s,
    bootMachine.setup BitmapAllocator.longMemoryMap 0x200000 0xC0105000 0x105000 = .ok s ∧
      ∃ r r', runEvents (step BitmapAllocator.allocatePage)
          { heap := Heap.initial s, returned := [] }
          [.heap (.vmalloc 100), .mapPage 0xD0000000 0xFD000000] = .ok r ∧
        runEvents (step BitmapAllocator.allocatePage) r [.heap (.vmalloc 9000)] = .ok r' ∧
        (∀ va p, r.heap.mem.translate va = some p → r'.heap.mem.translate va = some p) ∧
        Ledger s r'.heap.mem := by
  obtain ⟨s, hsetup, hstate, hevents, r, hrun⟩ := run_supplied_boot
  have hsplit : Admissible
      ([.heap (.vmalloc 100), .mapPage 0xD0000000 0xFD000000] ++ [.heap (.vmalloc 9000)]) := hevents
  rcases mappings_last hstate hsplit with hfail | hlast
  · cases hfail.symm.trans hrun
  · exact ⟨s, hsetup, hlast⟩

end Machine

end Muk
