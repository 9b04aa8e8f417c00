import Muk.Memory.Setup

/-!
# What `MapPage` does

`MapPage` takes two steps, each of which changes nothing if its entry is already
present: it makes sure that there is a page table, then that the page is mapped.
The two steps are stated once as relations, with everything they can do; that the
page tables stay well formed and that no other translation changes follows from
the relations alone.
-/

namespace Muk

namespace Machine

variable {s t : Machine} {i j : EntryIndex} {pa : Word}

/-- What the first branch of `MapPage` can do for directory entry `i`. -/
inductive TableStep (s : Machine) (i : EntryIndex) : Machine → Prop
  | present : s.HasTable i → TableStep s i s
  | create {f : Frame} {phys : BitmapAllocator 4096} : ¬ present (s.pde i) →
      f.toNat ∈ s.physManager.free → phys.free = s.physManager.free \ {f.toNat} →
      TableStep s i (s.withTable i f phys)

/-- What the second branch of `MapPage` can do for entry `j` of table `i`. -/
inductive PageStep (s : Machine) (i j : EntryIndex) (pa : Word) : Machine → Prop
  | present : present (entry s.ram (frameOf (s.pde i)) j) → PageStep s i j pa s
  | given : ¬ present (entry s.ram (frameOf (s.pde i)) j) → pa ≠ 0 →
      PageStep s i j pa (s.withPage (frameOf (s.pde i)) j pa s.physManager)
  | fresh {f : Frame} {phys : BitmapAllocator 4096} :
      ¬ present (entry s.ram (frameOf (s.pde i)) j) → pa = 0 →
      f.toNat ∈ s.physManager.free → phys.free = s.physManager.free \ {f.toNat} →
      PageStep s i j pa (s.withPage (frameOf (s.pde i)) j (physAddr f 0) phys)

/-! ## Good states stay good -/

/-- In a good state a free frame holds neither the directory nor a page table. -/
theorem Good.not_isTableFrame (hgood : s.Good) {f : Frame} (hf : f.toNat ∈ s.physManager.free) :
    ¬ IsTableFrame s.ram s.cr3 f := by
  rintro (rfl | ⟨i, hp, hl, rfl⟩)
  · exact hgood.dir_taken hf
  · by_cases hi : i = 1023
    · subst i
      rw [show frameOf (entry s.ram s.cr3 1023) = s.cr3 from hgood.recursive_frame] at hf
      exact hgood.dir_taken hf
    · exact hgood.table_taken i hi ⟨hp, hl⟩ hf

/-- The directory after a table is made. -/
theorem pde_withTable {f : Frame} (i : EntryIndex) (phys : BitmapAllocator 4096) (hf : f ≠ s.cr3)
    (k : EntryIndex) :
    (s.withTable i f phys).pde k = if k = i then tableEntry (physAddr f 0) else s.pde k := by
  have h := s.entry_withTable i f phys s.cr3 k
  simp only [if_neg hf.symm, true_and] at h
  exact h

/-- The new directory entry points to the new table. -/
theorem newTable_spec (f : Frame) :
    present (tableEntry (physAddr f 0)) = true ∧ large (tableEntry (physAddr f 0)) = false ∧
      frameOf (tableEntry (physAddr f 0)) = f := by
  have h := tableEntry_spec (physAddr_zero_aligned f)
  rwa [frameOf_physAddr f (by omega)] at h

/-- Making a table keeps every translation that succeeds. -/
theorem translate_withTable_some {f : Frame} {phys : BitmapAllocator 4096} (hgood : s.Good)
    (habsent : ¬ present (s.pde i)) (hf : f.toNat ∈ s.physManager.free) {va p : Word}
    (h : s.translate va = some p) : (s.withTable i f phys).translate va = some p := by
  refine translate_mono (fun g k hg hk => ?_) h
  have hgf : g ≠ f := by
    rintro rfl
    exact hgood.not_isTableFrame hf hg
  rw [entry_withTable, if_neg hgf, if_neg]
  rintro ⟨rfl, rfl⟩
  exact habsent hk

/-- Making a table changes no translation outside the recursive window. -/
theorem translate_withTable {f : Frame} {phys : BitmapAllocator 4096} (hgood : s.Good)
    (habsent : ¬ present (s.pde i)) (hf : f.toNat ∈ s.physManager.free) {va : Word}
    (hva : pdIndex va ≠ 1023) : (s.withTable i f phys).translate va = s.translate va := by
  have hfdir : f ≠ s.cr3 := fun h => hgood.dir_taken (h ▸ hf)
  by_cases hvai : pdIndex va = i
  · -- there was no table, and the new one is empty
    have hold : s.translate va = none := translate_of_absent (hvai ▸ habsent)
    obtain ⟨hp, hl, hframe⟩ := newTable_spec f
    have hpde := pde_withTable i phys hfdir i
    rw [if_pos rfl] at hpde
    have hnew : (s.withTable i f phys).translate va =
        let pte := entry (s.withTable i f phys).ram (frameOf ((s.withTable i f phys).pde i))
          (ptIndex va)
        if present pte then some (physAddr (frameOf pte) (va.toNat % 4096)) else none := by
      rw [← hvai] at hpde ⊢
      exact translate_of_table (by rw [← pde, hpde]; exact hp) (by rw [← pde, hpde]; simp [hl])
    rw [hold, hnew, hpde, hframe, entry_withTable, if_pos rfl]
    rfl
  · apply translate_congr
    · have := pde_withTable i phys hfdir (pdIndex va)
      rwa [if_neg hvai] at this
    · intro hp hl
      have hne : frameOf (s.pde (pdIndex va)) ≠ f := by
        intro h
        exact hgood.not_isTableFrame hf (Or.inr ⟨_, hp, hl, h⟩)
      have hdir : frameOf (s.pde (pdIndex va)) ≠ s.cr3 := hgood.table_ne_dir _ hva ⟨hp, hl⟩
      change entry _ (frameOf (s.pde (pdIndex va))) _ = entry _ (frameOf (s.pde (pdIndex va))) _
      rw [entry_withTable, if_neg hne, if_neg fun h => hdir h.1]

/-- Making a table keeps the tables well formed. -/
theorem Good.withTable {f : Frame} {phys : BitmapAllocator 4096} (hgood : s.Good)
    (hi : i ≠ 1023) (habsent : ¬ present (s.pde i)) (hf : f.toNat ∈ s.physManager.free)
    (hphys : phys.free = s.physManager.free \ {f.toNat}) : (s.withTable i f phys).Good := by
  have hfdir : f ≠ s.cr3 := fun h => hgood.dir_taken (h ▸ hf)
  have hpde (k : EntryIndex) := pde_withTable i phys hfdir k
  obtain ⟨hp, hl, hframe⟩ := newTable_spec f
  have hold (k : EntryIndex) (hk : k ≠ i) :
      (s.withTable i f phys).HasTable k ↔ s.HasTable k := by
    simp only [HasTable, hpde k, if_neg hk]
  have hfresh (k : EntryIndex) (hk : s.HasTable k) : frameOf (s.pde k) ≠ f := by
    intro h
    exact hgood.not_isTableFrame hf (Or.inr ⟨k, hk.1, hk.2, h⟩)
  have hrec : (s.withTable i f phys).pde 1023 = s.pde 1023 := by rw [hpde, if_neg hi.symm]
  refine ⟨?_, ?_, ?_, ?_, ?_, ?_, ?_⟩
  · exact translate_withTable_some hgood habsent hf hgood.pageDir
  · exact (hold _ hi.symm).mpr hgood.recursive
  · rw [hrec]
    exact hgood.recursive_frame
  · intro k hk htable
    by_cases hki : k = i
    · rw [hki, hpde, if_pos rfl, hframe]
      exact hfdir
    · rw [hpde, if_neg hki]
      exact hgood.table_ne_dir k hk ((hold k hki).mp htable)
  · intro k l hk hl' htk htl heq
    rw [hpde, hpde] at heq
    by_cases hki : k = i
    · by_cases hli : l = i
      · rw [hki, hli]
      · rw [if_pos hki, if_neg hli, hframe] at heq
        exact absurd heq.symm (hfresh l ((hold l hli).mp htl))
    · by_cases hli : l = i
      · rw [if_neg hki, if_pos hli, hframe] at heq
        exact absurd heq (hfresh k ((hold k hki).mp htk))
      · rw [if_neg hki, if_neg hli] at heq
        exact hgood.table_inj k l hk hl' ((hold k hki).mp htk) ((hold l hli).mp htl) heq
  · intro k hk htable
    change _ ∉ phys.free
    rw [hphys]
    by_cases hki : k = i
    · rw [hki, hpde, if_pos rfl, hframe]
      exact fun h => h.2 rfl
    · rw [hpde, if_neg hki]
      exact fun h => hgood.table_taken k hk ((hold k hki).mp htable) h.1
  · change _ ∉ phys.free
    rw [hphys]
    exact fun h => hgood.dir_taken h.1

/-- Mapping a page keeps every directory entry. -/
theorem pde_withPage {f : Frame} (j : EntryIndex) (page : Word) (phys : BitmapAllocator 4096)
    (hf : f ≠ s.cr3) (k : EntryIndex) : (s.withPage f j page phys).pde k = s.pde k := by
  have h := s.entry_withPage f j page phys s.cr3 k
  rwa [if_neg (fun h => hf h.1.symm)] at h

/-- Mapping a page keeps every translation that succeeds. -/
theorem translate_withPage_some {f : Frame} {page : Word} {phys : BitmapAllocator 4096}
    (habsent : ¬ present (entry s.ram f j)) {va p : Word} (h : s.translate va = some p) :
    (s.withPage f j page phys).translate va = some p := by
  refine translate_mono (fun g k _ hk => ?_) h
  rw [entry_withPage, if_neg]
  rintro ⟨rfl, rfl⟩
  exact habsent hk

/-- Mapping a page of table `i` changes no other translation outside the recursive window. -/
theorem translate_withPage {page : Word} {phys : BitmapAllocator 4096} (hgood : s.Good)
    (hi : i ≠ 1023) (htable : s.HasTable i) {va : Word} (hva : pdIndex va ≠ 1023)
    (hother : ¬ (pdIndex va = i ∧ ptIndex va = j)) :
    (s.withPage (frameOf (s.pde i)) j page phys).translate va = s.translate va := by
  have hdir := hgood.table_ne_dir i hi htable
  apply translate_congr
  · exact pde_withPage _ _ _ hdir _
  · intro hp hl
    rw [entry_withPage, if_neg]
    rintro ⟨hframe, hindex⟩
    exact hother ⟨hgood.table_inj _ _ hva hi ⟨hp, hl⟩ htable hframe, hindex⟩

/-- Mapping a page keeps the tables well formed. -/
theorem Good.withPage {page : Word} {phys : BitmapAllocator 4096} (hgood : s.Good) (hi : i ≠ 1023)
    (htable : s.HasTable i) (habsent : ¬ present (entry s.ram (frameOf (s.pde i)) j))
    (hphys : phys.free ⊆ s.physManager.free) :
    (s.withPage (frameOf (s.pde i)) j page phys).Good := by
  have hpde (k : EntryIndex) := pde_withPage j page phys
    (hgood.table_ne_dir i hi htable) k
  have hold (k : EntryIndex) :
      (s.withPage (frameOf (s.pde i)) j page phys).HasTable k ↔ s.HasTable k := by
    simp only [HasTable, hpde k]
  refine ⟨?_, ?_, ?_, ?_, ?_, ?_, ?_⟩
  · exact translate_withPage_some habsent hgood.pageDir
  · exact (hold _).mpr hgood.recursive
  · rw [hpde]
    exact hgood.recursive_frame
  · intro k hk hk'
    rw [hpde]
    exact hgood.table_ne_dir k hk ((hold k).mp hk')
  · intro k l hk hl hk' hl' heq
    rw [hpde, hpde] at heq
    exact hgood.table_inj k l hk hl ((hold k).mp hk') ((hold l).mp hl') heq
  · intro k hk hk' hmem
    rw [hpde] at hmem
    exact hgood.table_taken k hk ((hold k).mp hk') (hphys hmem)
  · exact fun hmem => hgood.dir_taken (hphys hmem)

/-! ## The steps of `MapPage` -/

/-- An allocator that hands out a free frame, or says that no frame is free. -/
def Honest (alloc : FrameAllocator) : Prop :=
  ∀ a, 0 ∉ a.free → (a.free = ∅ ∧ alloc a = .error .outOfPages) ∨ ∃ a' f, Grants alloc a a' f

/-- The address that `AllocatePage` makes from the number of a page. -/
theorem pageAddress_eq {p : ℕ} (hp : p < 2 ^ 20) :
    BitVec.ofNat 32 p <<< 12 = physAddr (BitVec.ofNat 20 p) 0 := by
  rw [BitmapAllocator.ofNat_shiftLeft_page, physAddr, BitVec.toNat_ofNat, Nat.mod_eq_of_lt hp,
    Nat.add_zero]

/-- The checked allocator takes a frame that was free, or fails for want of one. -/
theorem allocateChecked_honest : Honest allocateChecked := by
  intro a hzero
  rcases a.allocatePage_cases (by omega) with ⟨hempty, hcall⟩ | ⟨p, a', hleast, hcall, hfree⟩
  · exact Or.inl ⟨hempty, by simp [allocateChecked, hcall, bind, Except.bind]⟩
  · right
    have hlt := BitmapAllocator.lt_of_mem_free hleast.1
    have hp : (BitVec.ofNat 20 p).toNat = p := toNat_ofNat_of_lt (by omega)
    have haddr := pageAddress_eq (show p < 2 ^ 20 by omega)
    have hne : physAddr (BitVec.ofNat 20 p) 0 ≠ 0#32 := by
      intro h
      have hnat := congrArg BitVec.toNat h
      rw [toNat_physAddr _ (by omega), hp] at hnat
      have hp0 : p = 0 := by simpa using hnat
      exact hzero (hp0 ▸ hleast.1)
    refine ⟨a', BitVec.ofNat 20 p, ?_, by rw [hp]; exact hleast.1, by rw [hp, hfree]⟩
    simp [allocateChecked, hcall, haddr, hne, bind, Except.bind]

/-- The first half of `MapPage`, when the directory can be reached. -/
theorem ensureTable_eq (alloc : FrameAllocator)
    (hdir : s.translate s.pageDir = some (physAddr s.cr3 0)) {pdIdx : Word}
    (hidx : pdIdx.toNat = i.toNat) : ensureTable alloc s pdIdx =
      if present (s.pde i) then .ok s else createTable alloc s pdIdx := by
  have hread : s.readWord (s.pageDir + 4#32 * pdIdx) = .ok (s.pde i) := by
    rw [readWord, translate_pageDir hdir hidx]
    rfl
  by_cases hp : present (s.pde i) = true
  · simp [ensureTable, hread, isPresent_eq, hp, bind, Except.bind]
  · simp [ensureTable, hread, isPresent_eq, hp, bind, Except.bind]

/-- The second half of `MapPage`, when its entry can be reached. -/
theorem ensurePage_eq (alloc : FrameAllocator) (pa : Word) {va : Word} {f : Frame}
    (haddr : s.translate va = some (entryAddr f j)) : ensurePage alloc s va pa =
      if present (entry s.ram f j) then .ok s else createPage alloc s va pa := by
  have hread : s.readWord va = .ok (entry s.ram f j) := by
    rw [readWord, haddr]
    rfl
  by_cases hp : present (entry s.ram f j) = true
  · simp [ensurePage, hread, isPresent_eq, hp, bind, Except.bind]
  · simp [ensurePage, hread, isPresent_eq, hp, bind, Except.bind]

/-- The first half of `MapPage` fails for want of a frame or makes a table step. -/
theorem ensureTable_steps {alloc : FrameAllocator} (halloc : Honest alloc) (hgood : s.Good)
    (hzero : 0 ∉ s.physManager.free) (hi : i ≠ 1023)
    (hlarge : ¬ (present (s.pde i) ∧ large (s.pde i))) {pdIdx : Word}
    (hidx : pdIdx.toNat = i.toNat) :
    (ensureTable alloc s pdIdx = .error .outOfPages ∧ s.physManager.free = ∅) ∨
      ∃ t, TableStep s i t ∧ ensureTable alloc s pdIdx = .ok t := by
  rw [ensureTable_eq alloc hgood.pageDir hidx]
  split_ifs with hp
  · exact Or.inr ⟨s, .present ⟨hp, fun hl => hlarge ⟨hp, hl⟩⟩, rfl⟩
  · rcases halloc _ hzero with ⟨hempty, hcall⟩ | ⟨phys, f, hgrant⟩
    · exact Or.inl ⟨by simp [createTable, hcall, bind, Except.bind], hempty⟩
    · exact Or.inr ⟨_, .create hp hgrant.mem hgrant.free, createTable_spec hgood hi hidx hgrant⟩

/-- The second half of `MapPage` fails for want of a frame or makes a page step. -/
theorem ensurePage_steps {alloc : FrameAllocator} (pa : Word) (halloc : Honest alloc)
    (hzero : 0 ∉ s.physManager.free) {va : Word}
    (haddr : s.translate va = some (entryAddr (frameOf (s.pde i)) j)) :
    (ensurePage alloc s va pa = .error .outOfPages ∧ s.physManager.free = ∅) ∨
      ∃ t, PageStep s i j pa t ∧ ensurePage alloc s va pa = .ok t := by
  rw [ensurePage_eq alloc pa haddr]
  split_ifs with hp
  · exact Or.inr ⟨s, .present hp, rfl⟩
  · by_cases hpa : pa = 0
    · rcases halloc _ hzero with ⟨hempty, hcall⟩ | ⟨phys, f, hgrant⟩
      · exact Or.inl ⟨by simp [createPage, hpa, hcall, bind, Except.bind], hempty⟩
      · right
        refine ⟨_, .fresh hp hpa hgrant.mem hgrant.free, createPage_spec haddr ?_⟩
        rw [if_pos hpa, hgrant.call]
    · right
      exact ⟨_, .given hp hpa, createPage_spec haddr (if_neg hpa)⟩

/-- After a table step the state is good and has the table. -/
theorem TableStep.good (hstep : TableStep s i t) (hgood : s.Good) (hi : i ≠ 1023) :
    t.Good ∧ t.HasTable i := by
  cases hstep with
  | present htable => exact ⟨hgood, htable⟩
  | @create f phys habsent hf hphys =>
    refine ⟨hgood.withTable hi habsent hf hphys, ?_⟩
    obtain ⟨hp, hl, -⟩ := newTable_spec f
    have hpde := pde_withTable i phys (fun h => hgood.dir_taken (h ▸ hf)) i
    rw [if_pos rfl] at hpde
    exact ⟨by rw [hpde]; exact hp, by rw [hpde]; simp [hl]⟩

/-- A table step takes frames from the free ones only, and at most one. -/
theorem TableStep.free (hstep : TableStep s i t) :
    ∃ f, s.physManager.free \ {f} ⊆ t.physManager.free ∧
      t.physManager.free ⊆ s.physManager.free := by
  cases hstep with
  | present => exact ⟨0, Set.sdiff_subset, le_rfl⟩
  | @create f phys _ _ hphys => exact ⟨f.toNat, hphys.ge, hphys.le.trans Set.sdiff_subset⟩

/-- A page step takes frames from the free ones only. -/
theorem PageStep.free (hstep : PageStep s i j pa t) :
    t.physManager.free ⊆ s.physManager.free := by
  cases hstep with
  | present => exact le_rfl
  | given => exact le_rfl
  | fresh _ _ _ hphys => exact hphys.le.trans Set.sdiff_subset

/-- A page step keeps a good state good. -/
theorem PageStep.good (hstep : PageStep s i j pa t) (hgood : s.Good) (hi : i ≠ 1023)
    (htable : s.HasTable i) : t.Good := by
  have hfree := hstep.free
  cases hstep with
  | present => exact hgood
  | given habsent _ => exact hgood.withPage hi htable habsent hfree
  | fresh habsent _ _ _ => exact hgood.withPage hi htable habsent hfree

/-- **The steps of `MapPage`.** In a good state `MapPage` makes a table step and a
page step, unless it runs out of frames, which needs that at most one is free. -/
theorem mapPageWith_steps {alloc : FrameAllocator} (pa : Word) (halloc : Honest alloc)
    (hgood : s.Good) (hzero : 0 ∉ s.physManager.free) {va : Word} (hva : pdIndex va ≠ 1023)
    (hlarge : ¬ (present (s.pde (pdIndex va)) ∧ large (s.pde (pdIndex va)))) :
    (mapPageWith alloc s va pa = .error .outOfPages ∧ s.physManager.free.Subsingleton) ∨
      ∃ t s', TableStep s (pdIndex va) t ∧ PageStep t (pdIndex va) (ptIndex va) pa s' ∧
        mapPageWith alloc s va pa = .ok s' := by
  rcases ensureTable_steps halloc hgood hzero hva hlarge (toNat_pdIdx va) with
    ⟨hfail, hempty⟩ | ⟨t, htable, hrun⟩
  · left
    refine ⟨by simp only [mapPageWith, hfail, bind, Except.bind], ?_⟩
    rw [hempty]
    exact Set.subsingleton_empty
  · obtain ⟨hgood', htable'⟩ := htable.good hgood hva
    obtain ⟨f, hlost, hsub⟩ := htable.free
    have haddr := translate_window hgood'.recursive hgood'.recursive_frame (toNat_pdIdx va)
      (toNat_ptIdx va) htable'.1
    rcases ensurePage_steps pa halloc (fun h => hzero (hsub h)) haddr with
      ⟨hfail, hempty⟩ | ⟨s', hpage, hrun'⟩
    · left
      refine ⟨by simp only [mapPageWith, hrun, bind, Except.bind, hfail], ?_⟩
      rw [hempty, Set.subset_empty_iff, Set.sdiff_eq_empty] at hlost
      exact Set.subsingleton_singleton.anti hlost
    · exact Or.inr
        ⟨t, s', htable, hpage, by simp only [mapPageWith, hrun, bind, Except.bind, hrun']⟩

/-! ## What `MapPage` changes -/

/-- A table step changes no translation outside the recursive window. -/
theorem TableStep.translate (hstep : TableStep s i t) (hgood : s.Good) {va : Word}
    (hva : pdIndex va ≠ 1023) : t.translate va = s.translate va := by
  cases hstep with
  | present => rfl
  | create habsent hf _ => exact translate_withTable hgood habsent hf hva

/-- A page step changes at most the translation of its own page. -/
theorem PageStep.translate (hstep : PageStep s i j pa t) (hgood : s.Good) (hi : i ≠ 1023)
    (htable : s.HasTable i) {va : Word} (hva : pdIndex va ≠ 1023)
    (hother : ¬ (pdIndex va = i ∧ ptIndex va = j)) : t.translate va = s.translate va := by
  cases hstep with
  | present => rfl
  | given => exact translate_withPage hgood hi htable hva hother
  | fresh => exact translate_withPage hgood hi htable hva hother

/-- Mapping a page keeps every translation that succeeds. -/
theorem PageStep.translate_some (hstep : PageStep s i j pa t) {va p : Word}
    (hp : s.translate va = some p) : t.translate va = some p := by
  cases hstep with
  | present => exact hp
  | given habsent => exact translate_withPage_some habsent hp
  | fresh habsent => exact translate_withPage_some habsent hp

/-- Two addresses with the same indices lie in the same page. -/
theorem frameOf_eq_of_indices {va va' : Word} (hpd : pdIndex va' = pdIndex va)
    (hpt : ptIndex va' = ptIndex va) : frameOf va' = frameOf va := by
  have hpd' := congrArg BitVec.toNat hpd
  have hpt' := congrArg BitVec.toNat hpt
  simp only [toNat_pdIndex, toNat_ptIndex] at hpd' hpt'
  apply BitVec.eq_of_toNat_eq
  simp only [toNat_frameOf]
  omega

/-- Addresses in one page have the same indices. -/
theorem indices_of_frameOf_eq {va va' : Word} (h : frameOf va' = frameOf va) :
    pdIndex va' = pdIndex va ∧ ptIndex va' = ptIndex va := by
  have hpage := congrArg BitVec.toNat h
  simp only [toNat_frameOf] at hpage
  constructor <;> apply BitVec.eq_of_toNat_eq
  · simp only [toNat_pdIndex]
    omega
  · simp only [toNat_ptIndex, hpage]

/-- The page `MapPage` maps, when its entry was not present. -/
theorem translate_withPage_self {page : Word} (phys : BitmapAllocator 4096) (hgood : s.Good)
    (va : Word) (hva : pdIndex va ≠ 1023) (htable : s.HasTable (pdIndex va))
    (hpage : page.toNat % 4096 = 0) :
    (s.withPage (frameOf (s.pde (pdIndex va))) (ptIndex va) page phys).translate va =
      some (physAddr (frameOf page) (va.toNat % 4096)) := by
  have hdir := hgood.table_ne_dir _ hva htable
  have hpde := pde_withPage (ptIndex va) page phys hdir (pdIndex va)
  obtain ⟨hp, hframe⟩ := pageEntry_spec hpage
  refine (translate_of_table (by rw [← pde, hpde]; exact htable.1)
    (by rw [← pde, hpde]; exact htable.2)).trans ?_
  rw [← pde, hpde]
  simp only [entry_withPage, true_and, if_true, hp, hframe]

/-- A page with a table entry that is not present does not translate. -/
theorem translate_eq_none_iff (va : Word) (htable : s.HasTable (pdIndex va)) :
    s.translate va = none ↔
      ¬ present (entry s.ram (frameOf (s.pde (pdIndex va))) (ptIndex va)) := by
  rw [translate, translate_of_table htable.1 htable.2]
  change (if present (entry s.ram (frameOf (s.pde _)) _) then _ else none) = none ↔ _
  split_ifs with hp <;> simp [hp]

/-- What a run of `MapPage` leaves, whichever steps it took. -/
structure Mapped (s s' : Machine) (va pa : Word) : Prop where
  good : s'.Good
  cr3 : s'.cr3 = s.cr3
  /-- A page already present is left alone. -/
  present : (s.translate va).isSome → s' = s
  /-- A page that was not present translates to the frame asked for. -/
  given : s.translate va = none → pa ≠ 0 → ∀ va', frameOf va' = frameOf va →
    s'.translate va' = some (physAddr (frameOf pa) (va'.toNat % 4096))
  /-- Without a frame asked for, it translates to one just taken from the free ones. -/
  fresh : s.translate va = none → pa = 0 → ∃ f : Frame, f.toNat ∈ s.physManager.free ∧
    f.toNat ∉ s'.physManager.free ∧ ∀ va', frameOf va' = frameOf va →
      s'.translate va' = some (physAddr f (va'.toNat % 4096))
  /-- Every other page outside the recursive window translates as before. -/
  other : ∀ va', frameOf va' ≠ frameOf va → pdIndex va' ≠ 1023 →
    s'.translate va' = s.translate va'

/-- After a table step and a page step the page is mapped as asked. -/
theorem mapped_of_steps {s' : Machine} {va : Word} (hgood : s.Good) (hva : pdIndex va ≠ 1023)
    (hpa : pa.toNat % 4096 = 0) (htable : TableStep s (pdIndex va) t)
    (hpage : PageStep t (pdIndex va) (ptIndex va) pa s') : Mapped s s' va pa := by
  obtain ⟨hgood', htable'⟩ := htable.good hgood hva
  have hnone := translate_eq_none_iff va htable'
  rw [htable.translate hgood hva] at hnone
  obtain ⟨_, -, hsub⟩ := htable.free
  refine ⟨hpage.good hgood' hva htable', ?_, ?_, ?_, ?_, ?_⟩
  · cases htable <;> cases hpage <;> rfl
  · intro hsome
    have hp : Muk.present (entry t.ram (frameOf (t.pde (pdIndex va))) (ptIndex va)) := by
      by_contra habsent
      rw [hnone.mpr habsent] at hsome
      cases hsome
    cases hpage with
    | given habsent => exact absurd hp habsent
    | fresh habsent => exact absurd hp habsent
    | present =>
      cases htable with
      | present => rfl
      | create habsent =>
        have hmiss : s.translate va = none := translate_of_absent habsent
        rw [hmiss] at hsome
        cases hsome
  · intro hmiss hne va' hva'
    obtain ⟨hpd, hpt⟩ := indices_of_frameOf_eq hva'
    cases hpage with
    | present hp => exact absurd hp (hnone.mp hmiss)
    | fresh _ hzero => exact absurd hzero hne
    | given =>
      rw [← hpd, ← hpt]
      exact translate_withPage_self _ hgood' va' (hpd ▸ hva) (hpd ▸ htable') hpa
  · intro hmiss hzero
    cases hpage with
    | present hp => exact absurd hp (hnone.mp hmiss)
    | given _ hne => exact absurd hzero hne
    | @fresh f phys _ _ hf hphys =>
      refine ⟨f, hsub hf, ?_, fun va' hva' => ?_⟩
      · change _ ∉ phys.free
        rw [hphys]
        exact fun h => h.2 rfl
      · obtain ⟨hpd, hpt⟩ := indices_of_frameOf_eq hva'
        have hself := translate_withPage_self phys hgood' va' (hpd ▸ hva) (hpd ▸ htable')
          (physAddr_zero_aligned f)
        rwa [frameOf_physAddr f (by omega), hpd, hpt] at hself
  · intro va' hne hva'
    rw [hpage.translate hgood' hva htable' hva' fun h => hne (frameOf_eq_of_indices h.1 h.2)]
    exact htable.translate hgood hva'

/-- The steps change no directory entry but that of the page, which is present afterwards. -/
theorem pde_of_steps {s' : Machine} (hgood : s.Good) (hi : i ≠ 1023) (htable : TableStep s i t)
    (hpage : PageStep t i j pa s') : present (s'.pde i) ∧ ∀ k ≠ i, s'.pde k = s.pde k := by
  obtain ⟨hgood', htable'⟩ := htable.good hgood hi
  have hdir := hgood'.table_ne_dir i hi htable'
  have hsame (k : EntryIndex) : s'.pde k = t.pde k := by
    cases hpage with
    | present => rfl
    | given => exact pde_withPage _ _ _ hdir k
    | fresh => exact pde_withPage _ _ _ hdir k
  refine ⟨by rw [hsame]; exact htable'.1, fun k hk => (hsame k).trans ?_⟩
  cases htable with
  | present => rfl
  | @create f phys _ hf _ =>
    rw [pde_withTable i phys (fun h => hgood.dir_taken (h ▸ hf)) k, if_neg hk]

/-- An address of the recursive window goes through one more directory entry. -/
theorem translate_recursive (hgood : s.Good) {va : Word} (hva : pdIndex va = 1023) :
    s.translate va = if present (s.pde (ptIndex va)) then
      some (physAddr (frameOf (s.pde (ptIndex va))) (va.toNat % 4096)) else none := by
  have hframe := hgood.recursive_frame
  have hwalk : Muk.translate s.ram s.cr3 va = _ := translate_of_table
    (by rw [hva]; exact hgood.recursive.1) (by rw [hva]; exact hgood.recursive.2)
  rw [hva, ← pde, hframe] at hwalk
  exact hwalk

/-- Given a frame for the page, `MapPage` needs one for a missing page table only. -/
theorem mapPage_given {va : Word} (hgood : s.Good) (hva : pdIndex va ≠ 1023)
    (hlarge : ¬ (present (s.pde (pdIndex va)) ∧ large (s.pde (pdIndex va))))
    (hfree : ¬ present (s.pde (pdIndex va)) → s.physManager.free.Nonempty) (hpa : pa ≠ 0) :
    ∃ t s', TableStep s (pdIndex va) t ∧ PageStep t (pdIndex va) (ptIndex va) pa s' ∧
      s.mapPage va pa = .ok s' := by
  obtain ⟨t, htable, hrun⟩ : ∃ t, TableStep s (pdIndex va) t ∧
      ensureTable BitmapAllocator.allocatePage s (va >>> 22) = .ok t := by
    rw [ensureTable_eq _ hgood.pageDir (toNat_pdIdx va)]
    split_ifs with hp
    · exact ⟨s, .present ⟨hp, fun hl => hlarge ⟨hp, hl⟩⟩, rfl⟩
    · rcases s.physManager.allocatePage_cases (by omega) with ⟨hempty, -⟩ |
        ⟨p, phys, hleast, hcall, hphys⟩
      · exact absurd hempty (hfree hp).ne_empty
      · have hlt := BitmapAllocator.lt_of_mem_free hleast.1
        have hframe : (BitVec.ofNat 20 p).toNat = p := toNat_ofNat_of_lt (by omega)
        have hgrant : Grants BitmapAllocator.allocatePage s.physManager phys (BitVec.ofNat 20 p) :=
          ⟨by rw [hcall, pageAddress_eq (by omega)], hframe.symm ▸ hleast.1, hframe.symm ▸ hphys⟩
        exact ⟨_, .create hp hgrant.mem hgrant.free,
          createTable_spec hgood hva (toNat_pdIdx va) hgrant⟩
  obtain ⟨hgood', htable'⟩ := htable.good hgood hva
  have haddr := translate_window hgood'.recursive hgood'.recursive_frame (toNat_pdIdx va)
    (toNat_ptIdx va) htable'.1
  have hmap : s.mapPage va pa = ensurePage BitmapAllocator.allocatePage t
      (getFromVirtualAddress ((va >>> 22).setWidth 16) + 4#32 * ((va >>> 12) &&& 0x03FF#32))
        pa := by
    rw [mapPage, mapPageWith, hrun, ok_bind]
  rw [hmap, ensurePage_eq _ _ haddr]
  split_ifs with hp
  · exact ⟨t, t, htable, .present hp, rfl⟩
  · exact ⟨t, _, htable, .given hp hpa, createPage_spec haddr (if_neg hpa)⟩

/-- A run with the checked allocator is a run of the plain one. -/
theorem mapPage_of_checked {s' : Machine} {va : Word}
    (h : mapPageWith allocateChecked s va pa = .ok s') : s.mapPage va pa = .ok s' := by
  have halloc (a : BitmapAllocator 4096) (r) (hr : allocateChecked a = .ok r) :
      a.allocatePage = .ok r := by
    obtain ⟨⟨page, a'⟩, hcall, hcheck⟩ := bind_eq_ok.mp hr
    rw [hcall]
    change (if page = 0 then .error Fault.outOfPages else .ok (page, a')) = Except.ok r at hcheck
    split_ifs at hcheck
    exact hcheck
  obtain ⟨t, htable, hpage⟩ := bind_eq_ok.mp h
  obtain ⟨pde, hpde, htable⟩ := bind_eq_ok.mp htable
  obtain ⟨pte, hpte, hpage⟩ := bind_eq_ok.mp hpage
  refine bind_eq_ok.mpr ⟨t, bind_eq_ok.mpr ⟨pde, hpde, ?_⟩, bind_eq_ok.mpr ⟨pte, hpte, ?_⟩⟩
  · split_ifs at htable ⊢ with hp
    · obtain ⟨r, hr, htable⟩ := bind_eq_ok.mp htable
      exact bind_eq_ok.mpr ⟨r, halloc _ _ hr, htable⟩
    · exact htable
  · split_ifs at hpage ⊢ with hp
    · by_cases hpa : pa = 0
      · simp only [createPage, if_pos hpa] at hpage ⊢
        obtain ⟨r, hr, hpage⟩ := bind_eq_ok.mp hpage
        exact bind_eq_ok.mpr ⟨r, halloc _ _ hr, hpage⟩
      · simpa only [createPage, if_neg hpa] using hpage
    · exact hpage

/-- **`MapPage` changes exactly one translation.** In a good state with two free
frames, for every page that is neither in the recursive window nor under a 4 MiB
entry, `MapPage` leaves a good state in which that page is mapped and every other
page outside the window translates as before. -/
theorem mapPage_spec {va : Word} (hgood : s.Good) (hfree : 2 ≤ s.physManager.free.ncard)
    (hzero : 0 ∉ s.physManager.free) (hva : pdIndex va ≠ 1023)
    (hlarge : ¬ (present (s.pde (pdIndex va)) ∧ large (s.pde (pdIndex va))))
    (hpa : pa.toNat % 4096 = 0) : ∃ s', s.mapPage va pa = .ok s' ∧ Mapped s s' va pa := by
  rcases mapPageWith_steps pa allocateChecked_honest hgood hzero hva hlarge with
    ⟨-, hfew⟩ | ⟨t, s', htable, hpage, hrun⟩
  · have := s.physManager.finite_free.to_subtype
    have := Set.ncard_le_one_iff_subsingleton.mpr hfew
    omega
  · exact ⟨s', mapPage_of_checked hrun, mapped_of_steps hgood hva hpa htable hpage⟩

/-- After boot, a page of the frame buffer is mapped. -/
theorem mapPage_spec_boot : ∃ s s',
    bootMachine.setup BitmapAllocator.oneEntryMap 0x200000 0xC0105000 0x105000 = .ok s ∧
      s.mapPage 0xD0000000 0xFD000000 = .ok s' ∧ Mapped s s' 0xD0000000 0xFD000000 := by
  obtain ⟨s, hsetup, hstate, hfree⟩ :=
    setup_spec bootMachine_booted BitmapAllocator.oneEntryMap_low (by decide)
  rw [BitmapAllocator.oneEntryMap_available] at hfree
  have hcard : 2 ≤ s.physManager.free.ncard := by
    rw [hfree, ← Finset.coe_Ioo, Set.ncard_coe_finset, Nat.card_Ioo]
    omega
  have hzero : 0 ∉ s.physManager.free := by
    rw [hfree]
    simp
  have hpd : pdIndex 0xD0000000 = 832 := by decide
  have habsent (h : present (s.pde (pdIndex 0xD0000000)) ∧ large (s.pde (pdIndex 0xD0000000))) :
      False := hstate.others_absent 832 (by decide) (by decide) (by rw [← hpd]; exact h.1)
  have haligned : (0xFD000000 : Word).toNat % 4096 = 0 := rfl
  obtain ⟨s', hrun, hmapped⟩ := mapPage_spec hstate.good hcard hzero (by rw [hpd]; decide) habsent
    haligned
  exact ⟨s, s', hsetup, hrun, hmapped⟩

end Machine

end Muk
