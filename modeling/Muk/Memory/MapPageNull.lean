import Muk.Memory.MapPage

/-!
# `MapPage` without free pages

`MapPage` does not look at what `AllocatePage` returns. A call that returns `NULL` makes an entry
for frame 0, of the directory or of what the directory entry points to; that is a page table
unless the directory entry maps 4 MiB.
-/

namespace Muk

namespace Machine

variable {s s' : Machine} {g : Frame} {i j : EntryIndex} {va pa : Word}

/-- The page directory and all page tables are as they were. -/
def TablesKept (s s' : Machine) : Prop :=
  s'.cr3 = s.cr3 ∧ ∀ g, IsTableFrame s.ram s.cr3 g → ∀ j, entry s'.ram g j = entry s.ram g j

/-- What `AllocatePage` returns is the address of a frame. The one of frame 0 is `NULL`. -/
theorem allocatePage_frame (a : BitmapAllocator 4096) :
    ∃ f a', a.allocatePage = .ok (physAddr f 0, a') := by
  rcases a.allocatePage_cases (by omega) with ⟨-, hcall⟩ | ⟨p, a', hleast, hcall, -⟩
  · exact ⟨0, a, hcall⟩
  · have hlt := BitmapAllocator.lt_of_mem_free hleast.1
    exact ⟨_, a', by rw [hcall, pageAddress_eq (by omega)]⟩

/-- The checked allocator fails exactly if the code's returns frame 0. -/
theorem allocateChecked_eq {a a' : BitmapAllocator 4096} {page : Word}
    (h : a.allocatePage = .ok (page, a')) :
    allocateChecked a = if page = 0 then .error .outOfPages else .ok (page, a') := by
  rw [allocateChecked, h]
  rfl

/-- The second half of `MapPage` changes one entry at most. -/
theorem ensurePage_cases {alloc : FrameAllocator} {pteAddr : Word}
    (haddr : s.translate pteAddr = some (entryAddr g j))
    (h : ensurePage alloc s pteAddr pa = .ok s') :
    s' = s ∨ ∃ page phys, s' = s.withPage g j page phys := by
  rw [ensurePage_eq alloc pa haddr] at h
  split_ifs at h with hp
  · exact Or.inl (Except.ok.inj h).symm
  · by_cases hpa : pa = 0
    · have hcreate := h
      rw [createPage, if_pos hpa] at hcreate
      obtain ⟨⟨page, phys⟩, hcall, -⟩ := bind_eq_ok.mp hcreate
      rw [createPage_spec haddr ((if_pos hpa).trans hcall)] at h
      exact Or.inr ⟨page, phys, (Except.ok.inj h).symm⟩
    · rw [createPage_spec haddr (if_neg hpa)] at h
      exact Or.inr ⟨pa, s.physManager, (Except.ok.inj h).symm⟩

section Recursive

variable (hdir : s.translate s.pageDir = some (physAddr s.cr3 0)) (hrec : s.HasTable 1023)
  (hframe : frameOf (s.pde 1023) = s.cr3)

include hdir hrec hframe

/-- After `MapPage` a directory entry that was not present is, whatever frame it got. -/
theorem present_of_mapPage (habsent : ¬ present (s.pde (pdIndex va)))
    (h : s.mapPage va pa = .ok s') : present (s'.pde (pdIndex va)) := by
  have hi : pdIndex va ≠ 1023 := fun heq => habsent (heq ▸ hrec.1)
  obtain ⟨f, phys, hcall⟩ := allocatePage_frame s.physManager
  obtain ⟨t, htable, hpage⟩ := bind_eq_ok.mp h
  rw [ensureTable_eq _ hdir (toNat_pdIdx va), if_neg habsent] at htable
  by_cases hf : f = s.cr3
  · subst hf
    rw [createTable_self hdir hrec hframe hi (toNat_pdIdx va) hcall] at htable
    exact nomatch htable
  · rw [createTable_run hdir hrec hframe hi (toNat_pdIdx va) hcall hf] at htable
    obtain rfl := Except.ok.inj htable
    obtain ⟨hp, -, hframe'⟩ := newTable_spec f
    have hpde := pde_withTable (pdIndex va) phys hf (pdIndex va)
    rw [if_pos rfl] at hpde
    have hlast := pde_withTable (pdIndex va) phys hf 1023
    rw [if_neg hi.symm] at hlast
    have haddr := translate_window (s := s.withTable (pdIndex va) f phys)
      (by rw [HasTable, hlast]; exact hrec) (by rw [hlast]; exact hframe) (toNat_pdIdx va)
      (toNat_ptIdx va) (by rw [hpde]; exact hp)
    rw [hpde, hframe'] at haddr
    rcases ensurePage_cases haddr hpage with rfl | ⟨page, phys', rfl⟩
    · rw [hpde]
      exact hp
    · rw [pde_withPage (s := s.withTable (pdIndex va) f phys) _ _ _ hf, hpde]
      exact hp

omit hrec hframe in
/-- Without a page for a table, a checked run ends. -/
theorem mapPage_no_table (habsent : ¬ present (s.pde (pdIndex va)))
    (hnull : allocateChecked s.physManager = .error .outOfPages) :
    mapPageWith allocateChecked s va pa = .error .outOfPages := by
  rw [mapPageWith, ensureTable_eq _ hdir (toNat_pdIdx va), if_neg habsent, createTable, hnull]
  rfl

/-- With a directory entry, only the entry of the page is looked at. -/
theorem mapPageWith_of_present (alloc : FrameAllocator) (hp : present (s.pde (pdIndex va))) :
    mapPageWith alloc s va pa =
      if present (entry s.ram (frameOf (s.pde (pdIndex va))) (ptIndex va)) then .ok s
      else createPage alloc s (getFromVirtualAddress ((va >>> 22).setWidth 16) +
        4#32 * ((va >>> 12) &&& 0x03FF#32)) pa := by
  have haddr := translate_window hrec hframe (toNat_pdIdx va) (toNat_ptIdx va) hp
  rw [mapPageWith, ensureTable_eq _ hdir (toNat_pdIdx va), if_pos hp, ok_bind,
    ensurePage_eq _ _ haddr]

/-- Without a page, a checked run ends where the entry is not present. -/
theorem mapPage_no_page (hp : present (s.pde (pdIndex va)))
    (habsent : ¬ present (entry s.ram (frameOf (s.pde (pdIndex va))) (ptIndex va)))
    (hnull : allocateChecked s.physManager = .error .outOfPages) :
    mapPageWith allocateChecked s va 0 = .error .outOfPages := by
  rw [mapPageWith_of_present hdir hrec hframe _ hp, if_neg habsent, createPage, if_pos rfl, hnull]
  rfl

/-- Without a page, `MapPage` makes an entry for frame 0 in what the directory entry points to. -/
theorem mapPage_null (hp : present (s.pde (pdIndex va)))
    (hnull : mapPageWith allocateChecked s va 0 = .error .outOfPages) :
    ¬ present (entry s.ram (frameOf (s.pde (pdIndex va))) (ptIndex va)) ∧
      ∃ phys, s.mapPage va 0 =
        .ok (s.withPage (frameOf (s.pde (pdIndex va))) (ptIndex va) 0 phys) := by
  have haddr := translate_window hrec hframe (toNat_pdIdx va) (toNat_ptIdx va) hp
  rw [mapPageWith_of_present hdir hrec hframe _ hp] at hnull
  rw [mapPage, mapPageWith_of_present hdir hrec hframe _ hp]
  split_ifs at hnull ⊢ with hpte
  obtain ⟨f, phys, hcall⟩ := allocatePage_frame s.physManager
  have hzero : physAddr f 0 = 0 := by
    by_contra hne
    have hchecked := allocateChecked_eq hcall
    rw [if_neg hne] at hchecked
    rw [createPage_spec haddr ((if_pos rfl).trans hchecked)] at hnull
    cases hnull
  rw [hzero] at hcall
  exact ⟨hpte, phys, createPage_spec haddr ((if_pos rfl).trans hcall)⟩

/-- **When `MapPage` without a page leaves the page tables alone.** If a call of `AllocatePage`
returns `NULL`, then the directory and all page tables stay as they were if and only if the
directory entry maps 4 MiB whose first frame holds neither the directory nor a page table. -/
theorem mapPage_null_iff (hnull : mapPageWith allocateChecked s va 0 = .error .outOfPages) :
    (∃ s', s.mapPage va 0 = .ok s' ∧ TablesKept s s') ↔
      present (s.pde (pdIndex va)) ∧ large (s.pde (pdIndex va)) ∧
        ¬ IsTableFrame s.ram s.cr3 (frameOf (s.pde (pdIndex va))) := by
  by_cases hp : present (s.pde (pdIndex va)) = true
  · obtain ⟨habsent, phys, hrun⟩ := mapPage_null hdir hrec hframe hp hnull
    constructor
    · rintro ⟨s', hrun', -, hkept⟩
      obtain rfl := Except.ok.inj (hrun.symm.trans hrun')
      have hnot : ¬ IsTableFrame s.ram s.cr3 (frameOf (s.pde (pdIndex va))) := by
        intro htable
        have hsame := hkept _ htable (ptIndex va)
        rw [entry_withPage, if_pos ⟨rfl, rfl⟩] at hsame
        rw [← hsame] at habsent
        exact habsent (by decide)
      refine ⟨hp, ?_, hnot⟩
      by_contra hl
      exact hnot (Or.inr ⟨_, hp, hl, rfl⟩)
    · rintro ⟨-, -, hnot⟩
      refine ⟨_, hrun, rfl, fun g hg k => ?_⟩
      rw [entry_withPage, if_neg]
      rintro ⟨rfl, -⟩
      exact hnot hg
  · constructor
    · rintro ⟨s', hrun, hcr3, hkept⟩
      have hnow := present_of_mapPage hdir hrec hframe hp hrun
      rw [pde, hcr3, hkept s.cr3 (Or.inl rfl)] at hnow
      exact absurd hnow hp
    · rintro ⟨h, -⟩
      exact absurd h hp

end Recursive

/-- The machine after boot and `Memory::Setup`, with no page free above the kernel. -/
def exhaustedMachine : Machine where
  ram := store32 bootMachine.ram (entryAddr 0x105 1023) (tableEntry 0x105000)
  cr3 := 0x105
  pageDir := 0xC0105000
  physManager := { freePages := 0, bitmap := Vector.replicate 4096 0 }

/-- The exhausted machine has its directory and the kernel mapped, and nothing else. -/
theorem exhaustedMachine_pde (i : EntryIndex) : exhaustedMachine.pde i =
    if i = 1023 then tableEntry 0x105000 else if i = 768 then 0x83#32 else 0 := by
  have hboot : bootMachine.pde i = if i = 768 then 0x83#32 else 0 := by
    split_ifs with hi
    · rw [hi, bootMachine_booted.kernel_entry]
    · exact bootMachine_booted.other_entries i hi
  change entry (store32 _ (entryAddr 0x105 1023) _) 0x105 i = _
  rw [entry_store32, ← hboot]
  simp only [true_and]
  rfl

/-- The exhausted machine has its directory in the last entry. -/
theorem exhaustedMachine_recursive : exhaustedMachine.HasTable 1023 ∧
    frameOf (exhaustedMachine.pde 1023) = exhaustedMachine.cr3 := by
  rw [HasTable, exhaustedMachine_pde, if_pos rfl]
  decide

/-- The exhausted machine maps the kernel with a large page. -/
theorem exhaustedMachine_kernel : exhaustedMachine.pde 768 = 0x83#32 := by
  rw [exhaustedMachine_pde]
  rfl

/-- The exhausted machine has its directory where the code expects it. -/
theorem exhaustedMachine_pageDir : exhaustedMachine.translate exhaustedMachine.pageDir =
    some (physAddr exhaustedMachine.cr3 0) :=
  translate_kernel exhaustedMachine_kernel (by decide)

/-- Nothing is stored in frame 0. -/
theorem exhaustedMachine_frame_zero (j : EntryIndex) : entry exhaustedMachine.ram 0 j = 0 := by
  have hbytes : ofBytes 0 0 0 0 = 0#32 := by decide
  have hne : ¬ (0 : Frame) = 0x105 := by decide
  change entry
    (store32 (store32 (fun _ => 0) (entryAddr 0x105 768) _) (entryAddr 0x105 1023) _) 0 j = 0
  rw [entry_store32, if_neg fun h => hne h.1, entry_store32, if_neg fun h => hne h.1]
  exact hbytes

/-- The exhausted machine has no free frame. -/
theorem exhaustedMachine_allocateChecked :
    allocateChecked exhaustedMachine.physManager = .error .outOfPages := by
  have hempty : exhaustedMachine.physManager.free = ∅ :=
    BitmapAllocator.storageFree_zero fun chunk h => by simp
  rw [allocateChecked_eq (BitmapAllocator.allocatePage_empty hempty)]
  rfl

/-- A call for a page of the kernel's 4 MiB writes into frame 0. -/
theorem mapPage_null_kernel :
    ∃ s', exhaustedMachine.mapPage 0xC0000000 0 = .ok s' ∧ TablesKept exhaustedMachine s' := by
  have hpd : pdIndex 0xC0000000 = 768 := by decide
  have hp : present (exhaustedMachine.pde 768) := by
    rw [exhaustedMachine_kernel]
    decide
  have hl : large (exhaustedMachine.pde 768) := by
    rw [exhaustedMachine_kernel]
    decide
  have hzero : frameOf (exhaustedMachine.pde 768) = 0 := by
    rw [exhaustedMachine_kernel]
    decide
  have habsent : ¬ present (entry exhaustedMachine.ram
      (frameOf (exhaustedMachine.pde (pdIndex 0xC0000000))) (ptIndex 0xC0000000)) := by
    rw [hpd, hzero, exhaustedMachine_frame_zero]
    decide
  have hnull : mapPageWith allocateChecked exhaustedMachine 0xC0000000 0 = .error .outOfPages :=
    mapPage_no_page exhaustedMachine_pageDir exhaustedMachine_recursive.1
      exhaustedMachine_recursive.2 (by rw [hpd]; exact hp) habsent exhaustedMachine_allocateChecked
  refine (mapPage_null_iff exhaustedMachine_pageDir exhaustedMachine_recursive.1
    exhaustedMachine_recursive.2 hnull).mpr ?_
  rw [hpd, hzero]
  refine ⟨hp, hl, ?_⟩
  rintro (hdir | ⟨i, hpi, hli, hfi⟩)
  · exact absurd hdir (by decide)
  · change present (exhaustedMachine.pde i) = true at hpi
    change ¬ large (exhaustedMachine.pde i) = true at hli
    change frameOf (exhaustedMachine.pde i) = 0 at hfi
    rw [exhaustedMachine_pde] at hpi hli hfi
    split_ifs at hpi hli hfi
    · exact absurd hfi (by decide)
    · exact absurd hli (by decide)
    · exact absurd hpi (by decide)

/-- A call for a page of a new table leaves a directory entry for frame 0. -/
theorem exhaustedMachine_mapPage :
    mapPageWith allocateChecked exhaustedMachine 0xE0000000 0 = .error .outOfPages ∧
      ¬ ∃ s', exhaustedMachine.mapPage 0xE0000000 0 = .ok s' ∧ TablesKept exhaustedMachine s' := by
  have hpd : pdIndex 0xE0000000 = 896 := by decide
  have hpde : exhaustedMachine.pde (pdIndex 0xE0000000) = 0 := by
    rw [hpd, exhaustedMachine_pde]
    rfl
  have habsent : ¬ present (exhaustedMachine.pde (pdIndex 0xE0000000)) := by
    rw [hpde]
    decide
  refine ⟨mapPage_no_table exhaustedMachine_pageDir habsent exhaustedMachine_allocateChecked, ?_⟩
  rintro ⟨s', hrun, hcr3, hkept⟩
  have hnow := present_of_mapPage exhaustedMachine_pageDir exhaustedMachine_recursive.1
    exhaustedMachine_recursive.2 habsent hrun
  rw [pde, hcr3, hkept exhaustedMachine.cr3 (Or.inl rfl)] at hnow
  exact habsent hnow

end Machine

end Muk
