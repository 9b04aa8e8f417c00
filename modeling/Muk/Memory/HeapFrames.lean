import Muk.Memory.MapPage
import Muk.Memory.HeapRuns

/-!
# The frames behind the heap

The heap runs on the machine's own page tables. The invariant says that the pages
of the heap lie in frames of their own: no two pages share a frame, and the frames
are taken, hold no page table, and are not part of the kernel image. Both steps of
`MapPage` keep it, and in states with this invariant the machine is a lawful memory.
-/

namespace Muk

namespace Machine

variable {s t : Machine} {i j : EntryIndex} {pa : Word} {kernelEnd : Word}

/-- A frame outside the directory, the page tables and the free frames, and above
the kernel image. -/
structure DataFrame (kernelEnd : Word) (s : Machine) (f : Frame) : Prop where
  not_table : ¬ IsTableFrame s.ram s.cr3 f
  taken : f.toNat ∉ s.physManager.free
  above : kernelEnd.toNat / 4096 < f.toNat

/-- The page tables are good and the heap has its frames for itself. Directory entry
768 is the only one that may map 4 MiB. -/
structure Private (kernelEnd : Word) (s : Machine) : Prop where
  good : s.Good
  free_above : ∀ p ∈ s.physManager.free, kernelEnd.toNat / 4096 < p
  not_large : ∀ i ≠ 768, ¬ (present (s.pde i) ∧ large (s.pde i))
  data : ∀ va ∈ Heap.window, ∀ p, s.translate va = some p → s.DataFrame kernelEnd (frameOf p)
  inj : ∀ va ∈ Heap.window, ∀ va' ∈ Heap.window, ∀ p p', s.translate va = some p →
    s.translate va' = some p' → frameOf p = frameOf p' → frameOf va = frameOf va'

/-- Frame 0 is part of the kernel image, and never free. -/
theorem Private.zero_not_free (h : s.Private kernelEnd) : 0 ∉ s.physManager.free := by
  intro hmem
  have := h.free_above 0 hmem
  omega

/-- The heap lies under directory entries 896 to 959. -/
theorem pdIndex_of_window {va : Word} (hva : va ∈ Heap.window) :
    pdIndex va ≠ 1023 ∧ pdIndex va ≠ 768 := by
  rw [Heap.mem_window] at hva
  constructor <;> intro h
  · have hnat := congrArg BitVec.toNat h
    rw [toNat_pdIndex, show (1023 : EntryIndex).toNat = 1023 from rfl] at hnat
    omega
  · have hnat := congrArg BitVec.toNat h
    rw [toNat_pdIndex, show (768 : EntryIndex).toNat = 768 from rfl] at hnat
    omega

/-! ## What the steps of `MapPage` keep -/

/-- A table step writes the directory and the new table only. -/
theorem TableStep.ram (hstep : TableStep s i t) {x : Word}
    (htable : ¬ IsTableFrame s.ram s.cr3 (frameOf x))
    (htaken : (frameOf x).toNat ∉ s.physManager.free) : t.ram x = s.ram x := by
  cases hstep with
  | present => rfl
  | create _ hf _ =>
    have hne : frameOf x ≠ _ := fun h => htaken (h ▸ hf)
    have hdir : frameOf x ≠ s.cr3 := fun h => htable (Or.inl h)
    simp only [withTable, zeroFrame_ne _ hne, store32_entry_frame _ _ _ hdir]

/-- A page step writes a page table only. -/
theorem PageStep.ram (hstep : PageStep s i j pa t) (hi : s.HasTable i) {x : Word}
    (htable : ¬ IsTableFrame s.ram s.cr3 (frameOf x)) : t.ram x = s.ram x := by
  have hne : frameOf x ≠ frameOf (s.pde i) := fun h => htable (Or.inr ⟨i, hi.1, hi.2, h.symm⟩)
  cases hstep with
  | present => rfl
  | given => exact store32_entry_frame _ _ _ hne
  | fresh => exact store32_entry_frame _ _ _ hne

/-- A table step changes the directory by a table in a frame that was free. -/
theorem TableStep.pde (hstep : TableStep s i t) (hgood : s.Good) (k : EntryIndex) :
    t.pde k = s.pde k ∨ ∃ f : Frame, t.pde k = tableEntry (physAddr f 0) ∧
      f.toNat ∈ s.physManager.free ∧ f.toNat ∉ t.physManager.free := by
  cases hstep with
  | present => exact Or.inl rfl
  | @create f phys habsent hf hphys =>
    have hne : f ≠ s.cr3 := fun h => hgood.dir_taken (h ▸ hf)
    rw [pde_withTable i phys hne]
    by_cases hk : k = i
    · rw [if_pos hk]
      refine Or.inr ⟨f, rfl, hf, ?_⟩
      change _ ∉ phys.free
      rw [hphys]
      exact fun h => h.2 rfl
    · exact Or.inl (if_neg hk)

/-- A page step leaves the directory as it is. -/
theorem PageStep.pde (hstep : PageStep s i j pa t) (hgood : s.Good) (hi : i ≠ 1023)
    (htable : s.HasTable i) (k : EntryIndex) : t.pde k = s.pde k := by
  have hne := hgood.table_ne_dir i hi htable
  cases hstep with
  | present => rfl
  | given => exact pde_withPage _ _ _ hne k
  | fresh => exact pde_withPage _ _ _ hne k

/-- A table step keeps the tables that there are. -/
theorem TableStep.hasTable (hstep : TableStep s i t) (hgood : s.Good) {k : EntryIndex}
    (hk : s.HasTable k) : t.HasTable k := by
  rcases hstep.pde hgood k with hsame | ⟨f, hnew, -, -⟩
  · rw [HasTable, hsame]
    exact hk
  · obtain ⟨hp, hl, -⟩ := newTable_spec f
    rw [HasTable, hnew, hp, hl]
    simp

/-- A page step keeps the tables that there are. -/
theorem PageStep.hasTable (hstep : PageStep s i j pa t) (hgood : s.Good) (hi : i ≠ 1023)
    (htable : s.HasTable i) {k : EntryIndex} (hk : s.HasTable k) : t.HasTable k := by
  rw [HasTable, hstep.pde hgood hi htable k]
  exact hk

/-- A table step leaves the directory register as it is. -/
theorem TableStep.cr3 (hstep : TableStep s i t) : t.cr3 = s.cr3 := by
  cases hstep <;> rfl

/-- A page step leaves the directory register as it is. -/
theorem PageStep.cr3 (hstep : PageStep s i j pa t) : t.cr3 = s.cr3 := by
  cases hstep <;> rfl

/-- Data frames stay data frames when a table is made. -/
theorem TableStep.dataFrame (hstep : TableStep s i t) (hgood : s.Good) {f : Frame}
    (hf : s.DataFrame kernelEnd f) : t.DataFrame kernelEnd f := by
  obtain ⟨_, -, hsub⟩ := hstep.free
  refine ⟨?_, fun h => hf.taken (hsub h), hf.above⟩
  rintro (hdir | ⟨k, hp, hl, hframe⟩)
  · exact hf.not_table (Or.inl (hdir.trans hstep.cr3))
  · change Muk.present (t.pde k) at hp
    change ¬ large (t.pde k) at hl
    change frameOf (t.pde k) = f at hframe
    rcases hstep.pde hgood k with hsame | ⟨g, hnew, hg, -⟩
    · rw [hsame] at hp hl hframe
      exact hf.not_table (Or.inr ⟨k, hp, hl, hframe⟩)
    · obtain ⟨-, -, hg'⟩ := newTable_spec g
      rw [hnew, hg'] at hframe
      exact hf.taken (hframe ▸ hg)

/-- Mapping a page makes no new page table. -/
theorem PageStep.isTableFrame (hstep : PageStep s i j pa t) (hgood : s.Good) (hi : i ≠ 1023)
    (htable : s.HasTable i) {f : Frame} (hf : IsTableFrame t.ram t.cr3 f) :
    IsTableFrame s.ram s.cr3 f := by
  rcases hf with hdir | ⟨k, hp, hl, hframe⟩
  · exact Or.inl (hdir.trans hstep.cr3)
  · have hsame := hstep.pde hgood hi htable k
    change Muk.present (t.pde k) at hp
    change ¬ large (t.pde k) at hl
    change frameOf (t.pde k) = f at hframe
    rw [hsame] at hp hl hframe
    exact Or.inr ⟨k, hp, hl, hframe⟩

/-- Data frames stay data frames when a page is mapped. -/
theorem PageStep.dataFrame (hstep : PageStep s i j pa t) (hgood : s.Good) (hi : i ≠ 1023)
    (htable : s.HasTable i) {f : Frame} (hf : s.DataFrame kernelEnd f) :
    t.DataFrame kernelEnd f :=
  ⟨fun h => hf.not_table (hstep.isTableFrame hgood hi htable h),
    fun h => hf.taken (hstep.free h), hf.above⟩

/-- The first half of `MapPage` keeps the heap's frames private. -/
theorem Private.tableStep (h : s.Private kernelEnd) (hstep : TableStep s i t) (hi : i ≠ 1023) :
    t.Private kernelEnd := by
  obtain ⟨_, -, hsub⟩ := hstep.free
  have htranslate (va : Word) (hva : va ∈ Heap.window) : t.translate va = s.translate va :=
    hstep.translate h.good (pdIndex_of_window hva).1
  refine ⟨(hstep.good h.good hi).1, fun p hp => h.free_above p (hsub hp), fun k hk hlarge => ?_,
    fun va hva p hp => ?_, fun va hva va' hva' p p' hp hp' => ?_⟩
  · rcases hstep.pde h.good k with hsame | ⟨f, hnew, -, -⟩
    · rw [hsame] at hlarge
      exact h.not_large k hk hlarge
    · obtain ⟨-, hl, -⟩ := newTable_spec f
      rw [hnew, hl] at hlarge
      cases hlarge.2
  · rw [htranslate va hva] at hp
    exact hstep.dataFrame h.good (h.data va hva p hp)
  · rw [htranslate va hva] at hp
    rw [htranslate va' hva'] at hp'
    exact h.inj va hva va' hva' p p' hp hp'

/-- A page step outside the heap keeps the heap's frames private. -/
theorem Private.pageStep_outside (h : s.Private kernelEnd) (hi : i ≠ 1023)
    (hstep : PageStep s i j pa t) (htable : s.HasTable i)
    (houtside : ∀ va ∈ Heap.window, pdIndex va ≠ i) : t.Private kernelEnd := by
  have htranslate (va : Word) (hva : va ∈ Heap.window) : t.translate va = s.translate va :=
    hstep.translate h.good hi htable (pdIndex_of_window hva).1 fun hij => houtside va hva hij.1
  refine ⟨hstep.good h.good hi htable, fun p hp => h.free_above p (hstep.free hp),
    fun k hk hlarge => ?_, fun va hva p hp => ?_, fun va hva va' hva' p p' hp hp' => ?_⟩
  · rw [hstep.pde h.good hi htable k] at hlarge
    exact h.not_large k hk hlarge
  · rw [htranslate va hva] at hp
    exact hstep.dataFrame h.good hi htable (h.data va hva p hp)
  · rw [htranslate va hva] at hp
    rw [htranslate va' hva'] at hp'
    exact h.inj va hva va' hva' p p' hp hp'

/-- A page may be mapped to a free frame: no other page of the heap lies in it. -/
theorem Private.inj_fresh (h : s.Private kernelEnd) {f page : Frame}
    (hf : f.toNat ∈ s.physManager.free)
    (hself : ∀ x p, frameOf x = page → t.translate x = some p → frameOf p = f)
    (hother : ∀ x ∈ Heap.window, frameOf x ≠ page → t.translate x = s.translate x) {x x' : Word}
    (hx : x ∈ Heap.window) (hx' : x' ∈ Heap.window) {p p' : Word} (hp : t.translate x = some p)
    (hp' : t.translate x' = some p') (heq : frameOf p = frameOf p') : frameOf x = frameOf x' := by
  have hfresh (y : Word) (hy : y ∈ Heap.window) (q : Word) (hq : s.translate y = some q) :
      frameOf q ≠ f := fun h' => (h.data y hy q hq).taken (h' ▸ hf)
  by_cases hpage : frameOf x = page
  · by_cases hpage' : frameOf x' = page
    · rw [hpage, hpage']
    · rw [hother x' hx' hpage'] at hp'
      rw [hself x p hpage hp] at heq
      exact absurd heq.symm (hfresh x' hx' p' hp')
  · rw [hother x hx hpage] at hp
    by_cases hpage' : frameOf x' = page
    · rw [hself x' p' hpage' hp'] at heq
      exact absurd heq (hfresh x hx p hp)
    · rw [hother x' hx' hpage'] at hp'
      exact h.inj x hx x' hx' p p' hp hp' heq

/-- The addresses of a page that is mapped to a frame. -/
theorem translate_withPage_frame (hgood : s.Good) {va x : Word} (f : Frame)
    (phys : BitmapAllocator 4096) (hva : pdIndex va ≠ 1023) (htable : s.HasTable (pdIndex va))
    (hpage : frameOf x = frameOf va) :
    (s.withPage (frameOf (s.pde (pdIndex va))) (ptIndex va) (physAddr f 0) phys).translate x =
      some (physAddr f (x.toNat % 4096)) := by
  obtain ⟨hpd, hpt⟩ := indices_of_frameOf_eq hpage
  have h := translate_withPage_self phys hgood x (hpd ▸ hva) (hpd ▸ htable)
    (physAddr_zero_aligned f)
  rwa [frameOf_physAddr f (by omega), hpd, hpt] at h

/-- Mapping a page of the heap to a frame of the allocator's choice keeps the heap's
frames private, and the page is mapped then. -/
theorem Private.pageStep_heap (h : s.Private kernelEnd) {va : Word} (hva : va ∈ Heap.window)
    (hstep : PageStep s (pdIndex va) (ptIndex va) 0 t) (htable : s.HasTable (pdIndex va)) :
    t.Private kernelEnd ∧
      ∀ x ∈ Heap.window, frameOf x = frameOf va → ∃ p, t.translate x = some p := by
  obtain ⟨hi, -⟩ := pdIndex_of_window hva
  have hgood' := hstep.good h.good hi htable
  have hframe {f : Frame} (hf : s.DataFrame kernelEnd f) : t.DataFrame kernelEnd f :=
    hstep.dataFrame h.good hi htable hf
  have hother (x : Word) (hx : x ∈ Heap.window) (hne : frameOf x ≠ frameOf va) :
      t.translate x = s.translate x :=
    hstep.translate h.good hi htable (pdIndex_of_window hx).1 fun hij =>
      hne (frameOf_eq_of_indices hij.1 hij.2)
  have hlarge (k : EntryIndex) (hk : k ≠ 768) : ¬ (Muk.present (t.pde k) ∧ large (t.pde k)) := by
    rw [hstep.pde h.good hi htable k]
    exact h.not_large k hk
  have hfree (p : ℕ) (hp : p ∈ t.physManager.free) : kernelEnd.toNat / 4096 < p :=
    h.free_above p (hstep.free hp)
  cases hstep with
  | given _ hne => exact absurd rfl hne
  | present hp =>
    refine ⟨h, fun x hx hpage => ?_⟩
    obtain ⟨hpd, hpt⟩ := indices_of_frameOf_eq hpage
    have hnone := translate_eq_none_iff x (hpd ▸ htable)
    rw [hpd, hpt] at hnone
    cases hx' : s.translate x with
    | some p => exact ⟨p, rfl⟩
    | none => exact absurd hp (hnone.mp hx')
  | @fresh f phys habsent _ hf hphys =>
    have hself {x : Word} (hpage : frameOf x = frameOf va) :=
      translate_withPage_frame h.good f phys hi htable hpage
    have hin (x p : Word) (hpage : frameOf x = frameOf va)
        (hp : (s.withPage (frameOf (s.pde (pdIndex va))) (ptIndex va) (physAddr f 0)
          phys).translate x = some p) : frameOf p = f := by
      rw [hself hpage] at hp
      rw [← Option.some.inj hp, frameOf_physAddr f (by omega)]
    have hnew : (s.withPage (frameOf (s.pde (pdIndex va))) (ptIndex va) (physAddr f 0)
        phys).DataFrame kernelEnd f := by
      refine ⟨fun htab => ?_, ?_, h.free_above _ hf⟩
      · exact h.good.not_isTableFrame hf
          ((PageStep.fresh habsent rfl hf hphys).isTableFrame h.good hi htable htab)
      · change _ ∉ phys.free
        rw [hphys]
        exact fun h => h.2 rfl
    refine ⟨⟨hgood', hfree, hlarge, fun x hx p hp => ?_, fun x hx x' hx' p p' hp hp' heq =>
      h.inj_fresh hf hin hother hx hx' hp hp' heq⟩, fun x _ hpage => ⟨_, hself hpage⟩⟩
    by_cases hpage : frameOf x = frameOf va
    · rw [hin x p hpage hp]
      exact hnew
    · rw [hother x hx hpage] at hp
      exact hframe (h.data x hx p hp)

/-! ## Writing to the heap -/

/-- The bytes of the directory and of the page tables are not those of the heap. -/
theorem Private.entry_store8 (h : s.Private kernelEnd) {a p : Word} (ha : a ∈ Heap.window)
    (hp : s.translate a = some p) (b : Byte) (g : Frame) (j : EntryIndex)
    (hg : IsTableFrame s.ram s.cr3 g) : entry (store8 s.ram p b) g j = entry s.ram g j := by
  refine entry_congr j fun x hx => store8_ne _ _ ?_
  rintro rfl
  exact (h.data a ha _ hp).not_table (hx ▸ hg)

/-- A write outside the page tables changes no translation. -/
theorem translate_of_entries {ram' : Mem}
    (hentry : ∀ g j, IsTableFrame s.ram s.cr3 g → entry ram' g j = entry s.ram g j) (va : Word) :
    ({ s with ram := ram' } : Machine).translate va = s.translate va :=
  translate_congr (hentry _ _ (Or.inl rfl)) fun hp hl => hentry _ _ (Or.inr ⟨_, hp, hl, rfl⟩)

/-- A write outside the page tables keeps the heap's frames private. -/
theorem Private.of_entries (h : s.Private kernelEnd) {ram' : Mem}
    (hentry : ∀ g j, IsTableFrame s.ram s.cr3 g → entry ram' g j = entry s.ram g j) :
    ({ s with ram := ram' } : Machine).Private kernelEnd := by
  have htranslate := translate_of_entries hentry
  have hpde (k : EntryIndex) : ({ s with ram := ram' } : Machine).pde k = s.pde k :=
    hentry _ k (Or.inl rfl)
  have htable (k : EntryIndex) : ({ s with ram := ram' } : Machine).HasTable k ↔ s.HasTable k := by
    simp only [HasTable, hpde]
  have hdata {f : Frame} (hf : s.DataFrame kernelEnd f) :
      ({ s with ram := ram' } : Machine).DataFrame kernelEnd f := by
    refine ⟨?_, hf.taken, hf.above⟩
    rintro (hdir | ⟨k, hp, hl, hframe⟩)
    · exact hf.not_table (Or.inl hdir)
    · change Muk.present (({ s with ram := ram' } : Machine).pde k) at hp
      change ¬ large (({ s with ram := ram' } : Machine).pde k) at hl
      change frameOf (({ s with ram := ram' } : Machine).pde k) = f at hframe
      rw [hpde] at hp hl hframe
      exact hf.not_table (Or.inr ⟨k, hp, hl, hframe⟩)
  refine ⟨⟨?_, (htable _).mpr h.good.recursive, ?_, fun k hk ht => ?_, fun k l hk hl hkt hlt => ?_,
    fun k hk ht => ?_, h.good.dir_taken⟩, h.free_above, fun k hk => ?_, fun va hva p hp => ?_,
    fun va hva va' hva' p p' hp hp' => ?_⟩
  · rw [htranslate]
    exact h.good.pageDir
  · rw [hpde]
    exact h.good.recursive_frame
  · rw [hpde]
    exact h.good.table_ne_dir k hk ((htable k).mp ht)
  · rw [hpde, hpde]
    exact h.good.table_inj k l hk hl ((htable k).mp hkt) ((htable l).mp hlt)
  · rw [hpde]
    exact h.good.table_taken k hk ((htable k).mp ht)
  · rw [hpde]
    exact h.not_large k hk
  · rw [htranslate] at hp
    exact hdata (h.data va hva p hp)
  · rw [htranslate] at hp hp'
    exact h.inj va hva va' hva' p p' hp hp'

end Machine

end Muk
