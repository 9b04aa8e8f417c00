import Muk.Lib.Paging
import Muk.Memory.PhysManager

/-!
# Page tables

`PageTableManager` edits the page directory through the pointer `page_dir` and
the page tables through the recursive last entry of the directory, so each of its
loads and stores is itself translated by the tables it edits.
-/

namespace Muk

/-- `Memory::kPageTableAddr`: page table `i` is seen at `kPageTableAddr + 4096 * i`. -/
def kPageTableAddr : Word := 0xFFC00000

/-- Physical memory with the directory in frame `cr3`, the member `page_dir` of
`virt_manager` (a virtual address), and `phys_manager`. -/
structure Machine where
  ram : Mem
  cr3 : Frame
  pageDir : Word
  physManager : BitmapAllocator 4096

/-- An allocator of page frames, as `AllocatePage` is one. -/
abbrev FrameAllocator := BitmapAllocator 4096 → Except Fault (Word × BitmapAllocator 4096)

namespace Machine

/-- An entry of the page directory. -/
def pde (s : Machine) (i : EntryIndex) : Word := entry s.ram s.cr3 i

/-- The physical address of a virtual one. -/
def translate (s : Machine) (va : Word) : Option Word := Muk.translate s.ram s.cr3 va

/-- A load of an aligned word through the paging unit. -/
def readWord (s : Machine) (va : Word) : Except Fault Word :=
  match s.translate va with
  | some p => .ok (load32 s.ram p)
  | none => .error .pageFault

/-- A store of an aligned word through the paging unit. -/
def writeWord (s : Machine) (va v : Word) : Except Fault Machine :=
  match s.translate va with
  | some p => .ok { s with ram := store32 s.ram p v }
  | none => .error .pageFault

/-- `is_present`: grabs the first bit of the entry - both PDEs and PTEs. -/
def isPresent (pageEntry : Word) : Bool := pageEntry &&& 0x1#32 ≠ 0

/-- `GetFromVirtualAddress`: the virtual address of a page table. -/
def getFromVirtualAddress (pageIndex : BitVec 16) : Word :=
  kPageTableAddr ||| (pageIndex.setWidth 32 <<< 12)

/-- The entry `MapPage` makes for a page table: present, read/write, all access,
and bit 5. -/
def tableEntry (pdePhysAddr : Word) : Word :=
  pdePhysAddr ||| 1#32 ||| (1#32 <<< 1) ||| (1#32 <<< 2) ||| (1#32 <<< 5)

/-- The entry `MapPage` makes for a page: present, read/write, all access. -/
def pageEntry (ptePhysAddr : Word) : Word :=
  ptePhysAddr ||| 1#32 ||| (1#32 <<< 1) ||| (1#32 <<< 2)

/-- The first branch of `MapPage`: a frame for the table, its directory entry, and
zeroes in the whole table, written through the recursive entry. -/
def createTable (alloc : FrameAllocator) (s : Machine) (pdIdx : Word) : Except Fault Machine := do
  let (pdePhysAddr, phys) ← alloc s.physManager
  let s := { s with physManager := phys }
  let s ← s.writeWord (s.pageDir + 4#32 * pdIdx) (tableEntry pdePhysAddr)
  let pageTable := getFromVirtualAddress (pdIdx.setWidth 16)
  forLoop (fun i s => s.writeWord (pageTable + 4#32 * BitVec.ofNat 32 i) 0) 0 1024 s

/-- The second branch of `MapPage`: the given frame or a new one, and its table entry. -/
def createPage (alloc : FrameAllocator) (s : Machine) (pteAddr physicalAddress : Word) :
    Except Fault Machine := do
  let (ptePhysAddr, phys) ←
    if physicalAddress = 0 then alloc s.physManager else .ok (physicalAddress, s.physManager)
  let s := { s with physManager := phys }
  s.writeWord pteAddr (pageEntry ptePhysAddr)

/-- The first half of `MapPage`: is the page directory entry present? If not, set it up. -/
def ensureTable (alloc : FrameAllocator) (s : Machine) (pdIdx : Word) : Except Fault Machine := do
  let pde ← s.readWord (s.pageDir + 4#32 * pdIdx)
  if !isPresent pde then createTable alloc s pdIdx else .ok s

/-- The second half of `MapPage`: is the page table entry present? If not, set it up. -/
def ensurePage (alloc : FrameAllocator) (s : Machine) (pteAddr physicalAddress : Word) :
    Except Fault Machine := do
  let pte ← s.readWord pteAddr
  if !isPresent pte then createPage alloc s pteAddr physicalAddress else .ok s

/-- `MapPage`, over the allocator it takes its frames from. -/
def mapPageWith (alloc : FrameAllocator) (s : Machine) (virtualAddress physicalAddress : Word) :
    Except Fault Machine := do
  let pdIdx := virtualAddress >>> 22
  let ptIdx := (virtualAddress >>> 12) &&& 0x03FF#32
  let s ← ensureTable alloc s pdIdx
  let pageTable := getFromVirtualAddress (pdIdx.setWidth 16)
  ensurePage alloc s (pageTable + 4#32 * ptIdx) physicalAddress

/-- `PageTableManager::MapPage` -/
def mapPage (s : Machine) (virtualAddress physicalAddress : Word) : Except Fault Machine :=
  mapPageWith BitmapAllocator.allocatePage s virtualAddress physicalAddress

/-- `AllocatePage` in a run that assumes it never returns `NULL`: the run ends there. -/
def allocateChecked : FrameAllocator := fun a => do
  let (page, a) ← a.allocatePage
  if page = 0 then .error .outOfPages else .ok (page, a)

/-! ## Good states -/

/-- Directory entry `i` points to a page table. -/
def HasTable (s : Machine) (i : EntryIndex) : Prop := present (s.pde i) ∧ ¬ large (s.pde i)

/-- The page tables are well formed: `page_dir` reaches the directory, whose last
entry points back to it; the other tables lie in pairwise distinct frames, none of
them the directory's; and `phys_manager` has given all these frames away. -/
structure Good (s : Machine) : Prop where
  pageDir : s.translate s.pageDir = some (physAddr s.cr3 0)
  recursive : s.HasTable 1023
  recursive_frame : frameOf (s.pde 1023) = s.cr3
  table_ne_dir : ∀ i ≠ 1023, s.HasTable i → frameOf (s.pde i) ≠ s.cr3
  table_inj : ∀ i j, i ≠ 1023 → j ≠ 1023 → s.HasTable i → s.HasTable j →
    frameOf (s.pde i) = frameOf (s.pde j) → i = j
  table_taken : ∀ i ≠ 1023, s.HasTable i → (frameOf (s.pde i)).toNat ∉ s.physManager.free
  dir_taken : s.cr3.toNat ∉ s.physManager.free

/-! ## Entries -/

/-- The code's test is that of the present bit. -/
theorem isPresent_eq (e : Word) : isPresent e = present e := by
  have h : e &&& 0x1#32 ≠ 0 ↔ present e = true :=
    BitmapAllocator.and_bit_ne_zero (show 0 < 32 by omega)
  rw [Bool.eq_iff_iff, ← h]
  exact decide_eq_true_iff

/-- Flags are below the address of a frame. -/
private theorem or_low {a c : Word} (ha : a.toNat % 4096 = 0) (hc : c.toNat < 4096) :
    (a ||| c).toNat = a.toNat + c.toNat := by
  have hpow : a.toNat = 2 ^ 12 * (a.toNat / 4096) := by omega
  rw [BitVec.toNat_or, hpow]
  exact (Nat.two_pow_add_eq_or_of_lt (i := 12) hc _).symm

/-- The frame of an entry is the frame of the address it was made from. -/
theorem tableEntry_spec {a : Word} (ha : a.toNat % 4096 = 0) :
    present (tableEntry a) = true ∧ large (tableEntry a) = false ∧
      frameOf (tableEntry a) = frameOf a := by
  have heq : tableEntry a = a ||| 0x27#32 := by
    simp only [tableEntry, BitVec.or_assoc]
    rfl
  have hnat : (tableEntry a).toNat = a.toNat + 39 := by
    rw [heq]
    exact or_low ha (by decide)
  simp only [present, large, BitVec.getLsbD, Nat.testBit_eq_decide_div_mod_eq, hnat,
    decide_eq_true_eq, decide_eq_false_iff_not]
  refine ⟨by omega, by omega, ?_⟩
  apply BitVec.eq_of_toNat_eq
  rw [toNat_frameOf, toNat_frameOf, hnat]
  omega

/-- An entry that `MapPage` makes is present, and has the frame that it was given. -/
theorem pageEntry_spec {a : Word} (ha : a.toNat % 4096 = 0) :
    present (pageEntry a) = true ∧ frameOf (pageEntry a) = frameOf a := by
  have heq : pageEntry a = a ||| 0x7#32 := by
    simp only [pageEntry, BitVec.or_assoc]
    rfl
  have hnat : (pageEntry a).toNat = a.toNat + 7 := by
    rw [heq]
    exact or_low ha (by decide)
  simp only [present, BitVec.getLsbD, Nat.testBit_eq_decide_div_mod_eq, hnat, decide_eq_true_eq]
  refine ⟨by omega, ?_⟩
  apply BitVec.eq_of_toNat_eq
  rw [toNat_frameOf, toNat_frameOf, hnat]
  omega

/-! ## The virtual addresses `MapPage` goes through -/

variable {s : Machine}

/-- The code's directory index is that of the processor. -/
theorem toNat_pdIdx (va : Word) : (va >>> 22).toNat = (pdIndex va).toNat := by
  rw [toNat_pdIndex, BitVec.toNat_ushiftRight, Nat.shiftRight_eq_div_pow]

/-- The code's table index is that of the processor. -/
theorem toNat_ptIdx (va : Word) : ((va >>> 12) &&& 0x03FF#32).toNat = (ptIndex va).toNat := by
  rw [toNat_ptIndex, BitVec.toNat_and, BitVec.toNat_ushiftRight, Nat.shiftRight_eq_div_pow]
  exact Nat.and_two_pow_sub_one_eq_mod _ 10

/-- `&page_dir[i]` is the address of directory entry `i`. -/
theorem translate_pageDir (h : s.translate s.pageDir = some (physAddr s.cr3 0))
    {i : EntryIndex} {pdIdx : Word} (hidx : pdIdx.toNat = i.toNat) :
    s.translate (s.pageDir + 4#32 * pdIdx) = some (entryAddr s.cr3 i) := by
  have halign := offset_of_translate h
  rw [toNat_physAddr _ (by omega)] at halign
  have hi := i.isLt
  have hsum : (s.pageDir + 4#32 * pdIdx).toNat = s.pageDir.toNat + 4 * i.toNat := by
    have := s.pageDir.isLt
    simp only [BitVec.toNat_add, BitVec.toNat_mul, BitVec.toNat_ofNat, hidx]
    omega
  refine translate_same_page (show _ = frameOf s.pageDir from ?_) ?_ h
  · apply BitVec.eq_of_toNat_eq
    rw [toNat_frameOf, toNat_frameOf, hsum]
    omega
  · rw [hsum]
    omega

/-- Page tables are seen through the recursive entry: the word `j` of page table
`i` is entry `j` of the frame directory entry `i` points to. -/
theorem translate_window_eq (hrec : s.HasTable 1023) (hframe : frameOf (s.pde 1023) = s.cr3)
    {i j : EntryIndex} {pdIdx ptIdx : Word} (hi : pdIdx.toNat = i.toNat)
    (hj : ptIdx.toNat = j.toNat) :
    s.translate (getFromVirtualAddress (pdIdx.setWidth 16) + 4#32 * ptIdx) =
      if present (s.pde i) then some (entryAddr (frameOf (s.pde i)) j) else none := by
  have hilt := i.isLt
  have hjlt := j.isLt
  have hshift : ((pdIdx.setWidth 16).setWidth 32 <<< 12).toNat = 4096 * i.toNat := by
    simp only [BitVec.toNat_shiftLeft, BitVec.toNat_setWidth, hi, Nat.shiftLeft_eq]
    omega
  have htable : (getFromVirtualAddress (pdIdx.setWidth 16)).toNat =
      0xFFC00000 + 4096 * i.toNat := by
    rw [getFromVirtualAddress, BitVec.toNat_or, hshift]
    exact (Nat.two_pow_add_eq_or_of_lt (i := 22) (by omega) 1023).symm
  let va := getFromVirtualAddress (pdIdx.setWidth 16) + 4#32 * ptIdx
  have hva : va.toNat = 0xFFC00000 + 4096 * i.toNat + 4 * j.toNat := by
    simp only [va, BitVec.toNat_add, BitVec.toNat_mul, BitVec.toNat_ofNat, htable, hj]
    omega
  have hpd : pdIndex va = 1023 := by
    apply BitVec.eq_of_toNat_eq
    rw [toNat_pdIndex, hva]
    change _ = 1023
    omega
  have hpt : ptIndex va = i := by
    apply BitVec.eq_of_toNat_eq
    rw [toNat_ptIndex, hva]
    omega
  have hoffset : va.toNat % 4096 = 4 * j.toNat := by omega
  have hwalk : Muk.translate s.ram s.cr3 va = _ :=
    translate_of_table (by rw [hpd]; exact hrec.1) (by rw [hpd]; exact hrec.2)
  rw [hpd, hpt, hoffset] at hwalk
  change frameOf (entry s.ram s.cr3 1023) = s.cr3 at hframe
  rw [hframe] at hwalk
  exact hwalk

/-- Through the recursive entry, a table is at its place in the window. -/
theorem translate_window (hrec : s.HasTable 1023) (hframe : frameOf (s.pde 1023) = s.cr3)
    {i j : EntryIndex} {pdIdx ptIdx : Word} (hi : pdIdx.toNat = i.toNat)
    (hj : ptIdx.toNat = j.toNat) (hpresent : present (s.pde i)) :
    s.translate (getFromVirtualAddress (pdIdx.setWidth 16) + 4#32 * ptIdx) =
      some (entryAddr (frameOf (s.pde i)) j) := by
  rw [translate_window_eq hrec hframe hi hj, if_pos hpresent]

/-- A store to word `n` of page table `i`. -/
theorem writeWord_window (hrec : s.HasTable 1023) (hframe : frameOf (s.pde 1023) = s.cr3)
    {i : EntryIndex} {pdIdx : Word} (hi : pdIdx.toNat = i.toNat) {n : ℕ} (hn : n < 1024)
    (v : Word) :
    s.writeWord (getFromVirtualAddress (pdIdx.setWidth 16) + 4#32 * BitVec.ofNat 32 n) v =
      if present (s.pde i) then
        .ok { s with ram := store32 s.ram (entryAddr (frameOf (s.pde i)) (BitVec.ofNat 10 n)) v }
      else .error .pageFault := by
  have hj : (BitVec.ofNat 32 n).toNat = (BitVec.ofNat 10 n).toNat := by
    simp only [BitVec.toNat_ofNat]
    omega
  rw [writeWord, translate_window_eq hrec hframe hi hj]
  split_ifs <;> rfl

/-! ## The two branches of `MapPage` -/

/-- An allocator call that hands out a free frame and takes it from the free ones. -/
structure Grants (alloc : FrameAllocator) (a a' : BitmapAllocator 4096) (f : Frame) : Prop where
  call : alloc a = .ok (physAddr f 0, a')
  mem : f.toNat ∈ a.free
  free : a'.free = a.free \ {f.toNat}

/-- The state after a page table is made in frame `f` for directory entry `i`. -/
def withTable (s : Machine) (i : EntryIndex) (f : Frame) (phys : BitmapAllocator 4096) : Machine :=
  { s with
    ram := zeroFrame (store32 s.ram (entryAddr s.cr3 i) (tableEntry (physAddr f 0))) f
    physManager := phys }

/-- The state after entry `j` of the table in frame `t` is made to map `page`. -/
def withPage (s : Machine) (t : Frame) (j : EntryIndex) (page : Word)
    (phys : BitmapAllocator 4096) : Machine :=
  { s with ram := store32 s.ram (entryAddr t j) (pageEntry page), physManager := phys }

/-- The first address of a frame is aligned. -/
theorem physAddr_zero_aligned (f : Frame) : (physAddr f 0).toNat % 4096 = 0 := by
  rw [toNat_physAddr f (by omega)]
  omega

/-- Every entry after a table is made: the directory entry is new, the table is
zero, and nothing else changed. -/
theorem entry_withTable (i : EntryIndex) (f : Frame) (phys : BitmapAllocator 4096) (g : Frame)
    (j : EntryIndex) :
    entry (s.withTable i f phys).ram g j =
      if g = f then 0
      else if g = s.cr3 ∧ j = i then tableEntry (physAddr f 0) else entry s.ram g j := by
  simp only [withTable, entry_zeroFrame, entry_store32]

/-- Every entry after a page is mapped. -/
theorem entry_withPage (t : Frame) (i : EntryIndex) (page : Word)
    (phys : BitmapAllocator 4096) (g : Frame) (j : EntryIndex) :
    entry (s.withPage t i page phys).ram g j =
      if g = t ∧ j = i then pageEntry page else entry s.ram g j := by
  simp only [withPage, entry_store32]

/-- The first store of the first branch of `MapPage`. -/
theorem createTable_eq {alloc : FrameAllocator} {phys : BitmapAllocator 4096} {f : Frame}
    {i : EntryIndex} {pdIdx : Word} (hdir : s.translate s.pageDir = some (physAddr s.cr3 0))
    (hidx : pdIdx.toNat = i.toNat) (hcall : alloc s.physManager = .ok (physAddr f 0, phys)) :
    createTable alloc s pdIdx =
      forLoop (fun n (t : Machine) => t.writeWord
        (getFromVirtualAddress (pdIdx.setWidth 16) + 4#32 * BitVec.ofNat 32 n) 0) 0 1024
        { s with
          ram := store32 s.ram (entryAddr s.cr3 i) (tableEntry (physAddr f 0))
          physManager := phys } := by
  have haddr : ({ s with physManager := phys } : Machine).translate (s.pageDir + 4#32 * pdIdx) =
      some (entryAddr s.cr3 i) := translate_pageDir hdir hidx
  simp only [createTable, hcall, bind, Except.bind, writeWord, haddr]

/-- The first branch of `MapPage`: all of its stores reach the memory they are
meant for, although the first one changes what the others go through. -/
theorem createTable_run {alloc : FrameAllocator} {phys : BitmapAllocator 4096} {f : Frame}
    {i : EntryIndex} {pdIdx : Word} (hdir : s.translate s.pageDir = some (physAddr s.cr3 0))
    (hrec : s.HasTable 1023) (hrecFrame : frameOf (s.pde 1023) = s.cr3) (hi : i ≠ 1023)
    (hidx : pdIdx.toNat = i.toNat) (hcall : alloc s.physManager = .ok (physAddr f 0, phys))
    (hf : f ≠ s.cr3) : createTable alloc s pdIdx = .ok (s.withTable i f phys) := by
  let ram := store32 s.ram (entryAddr s.cr3 i) (tableEntry (physAddr f 0))
  have hentry (j : EntryIndex) (n : ℕ) : entry (zeroPrefix ram f n) s.cr3 j =
      if j = i then tableEntry (physAddr f 0) else s.pde j := by
    rw [entry_congr j fun x hx => zeroPrefix_ne ram n (by rw [hx]; exact hf.symm), entry_store32]
    simp only [true_and]
    rfl
  obtain ⟨hpresent, -, hframe⟩ := tableEntry_spec (physAddr_zero_aligned f)
  rw [frameOf_physAddr f (by omega)] at hframe
  have hloop : ∃ t, forLoop (fun n (t : Machine) => t.writeWord
        (getFromVirtualAddress (pdIdx.setWidth 16) + 4#32 * BitVec.ofNat 32 n) 0) 0 1024
      { s with ram := ram, physManager := phys } = .ok t ∧
        t = { s with ram := zeroPrefix ram f 1024, physManager := phys } := forLoop_invariant
    (fun n t => t = { s with ram := zeroPrefix ram f n, physManager := phys })
    (by simp)
    (by
      rintro n hn t rfl
      rw [Nat.zero_add]
      let t : Machine := { s with ram := zeroPrefix ram f n, physManager := phys }
      have hrec' : t.pde 1023 = s.pde 1023 := by
        change entry (zeroPrefix ram f n) s.cr3 1023 = _
        rw [hentry, if_neg hi.symm]
      have hpde : t.pde i = tableEntry (physAddr f 0) := by
        change entry (zeroPrefix ram f n) s.cr3 i = _
        rw [hentry, if_pos rfl]
      have hn' : (BitVec.ofNat 10 n).toNat = n := toNat_ofNat_of_lt (by omega)
      have hwrite := t.writeWord_window (by rw [HasTable, hrec']; exact hrec)
        (by rw [hrec']; exact hrecFrame) hidx hn 0
      rw [hpde, if_pos hpresent, hframe] at hwrite
      refine ⟨_, hwrite, ?_⟩
      have hzero := store32_zeroPrefix ram f (BitVec.ofNat 10 n)
      rw [hn'] at hzero
      simp only [t, hzero])
  obtain ⟨t, hrun, rfl⟩ := hloop
  rw [zeroPrefix_all] at hrun
  rw [createTable_eq hdir hidx hcall]
  exact hrun

/-- In a good state a free frame is not the directory's. -/
theorem createTable_spec {alloc : FrameAllocator} {phys : BitmapAllocator 4096} {f : Frame}
    {i : EntryIndex} {pdIdx : Word} (hgood : s.Good) (hi : i ≠ 1023)
    (hidx : pdIdx.toNat = i.toNat) (hgrant : Grants alloc s.physManager phys f) :
    createTable alloc s pdIdx = .ok (s.withTable i f phys) :=
  createTable_run hgood.pageDir hgood.recursive hgood.recursive_frame hi hidx hgrant.call
    fun h => hgood.dir_taken (h ▸ hgrant.mem)

/-- Where the new table is the directory itself, its entry is zeroed with the others, and the
next store faults. -/
theorem createTable_self {alloc : FrameAllocator} {phys : BitmapAllocator 4096} {i : EntryIndex}
    {pdIdx : Word} (hdir : s.translate s.pageDir = some (physAddr s.cr3 0))
    (hrec : s.HasTable 1023) (hrecFrame : frameOf (s.pde 1023) = s.cr3) (hi : i ≠ 1023)
    (hidx : pdIdx.toNat = i.toNat) (hcall : alloc s.physManager = .ok (physAddr s.cr3 0, phys)) :
    createTable alloc s pdIdx = .error .pageFault := by
  let ram := store32 s.ram (entryAddr s.cr3 i) (tableEntry (physAddr s.cr3 0))
  let t (n : ℕ) : Machine := { s with ram := zeroPrefix ram s.cr3 n, physManager := phys }
  have hlt : i.toNat < 1023 := by
    have := i.isLt
    have : i.toNat ≠ (1023 : EntryIndex).toNat := fun h => hi (BitVec.eq_of_toNat_eq h)
    change i.toNat ≠ 1023 at this
    omega
  obtain ⟨hpresent, -, hframe⟩ := tableEntry_spec (physAddr_zero_aligned s.cr3)
  rw [frameOf_physAddr s.cr3 (by omega)] at hframe
  have hentry (n : ℕ) (j : EntryIndex) : (t n).pde j =
      if j.toNat < n then 0 else if j = i then tableEntry (physAddr s.cr3 0) else s.pde j := by
    change entry (zeroPrefix ram s.cr3 n) s.cr3 j = _
    rw [entry_zeroPrefix, entry_store32]
    simp only [true_and]
    rfl
  -- The recursive entry comes last.
  have hlast (n : ℕ) (hn : n ≤ 1023) : (t n).pde 1023 = s.pde 1023 := by
    have hnot : ¬ (1023 : EntryIndex).toNat < n := show ¬ 1023 < n by omega
    rw [hentry, if_neg hnot, if_neg hi.symm]
  have hwrite (n : ℕ) (hn : n ≤ 1023) := (t n).writeWord_window
    (by rw [HasTable, hlast n hn]; exact hrec) (by rw [hlast n hn]; exact hrecFrame)
    hidx (show n < 1024 by omega) 0
  obtain ⟨t', hrun, rfl⟩ : ∃ t', forLoop (fun n (t : Machine) => t.writeWord
        (getFromVirtualAddress (pdIdx.setWidth 16) + 4#32 * BitVec.ofNat 32 n) 0) 0 (i.toNat + 1)
      { s with ram := ram, physManager := phys } = .ok t' ∧ t' = t (i.toNat + 1) := by
    refine forLoop_invariant (fun n t' => t' = t n) (by simp [t]) ?_
    rintro n hn t' rfl
    have hn' : (BitVec.ofNat 10 n).toNat = n := toNat_ofNat_of_lt (by omega)
    have hthere : (t n).pde i = tableEntry (physAddr s.cr3 0) := by
      rw [hentry, if_neg (show ¬ i.toNat < n by omega), if_pos rfl]
    have hstore := hwrite n (by omega)
    rw [hthere, if_pos hpresent, hframe] at hstore
    refine ⟨_, by rw [Nat.zero_add]; exact hstore, ?_⟩
    have hzero := store32_zeroPrefix ram s.cr3 (BitVec.ofNat 10 n)
    rw [hn'] at hzero
    simp only [t, hzero]
  have hgone : (t (i.toNat + 1)).pde i = 0 := by
    rw [hentry, if_pos (Nat.lt_succ_self _)]
  have habsent : ¬ present 0 = true := by decide
  have hfault := hwrite (i.toNat + 1) (by omega)
  rw [hgone, if_neg habsent] at hfault
  rw [createTable_eq hdir hidx hcall]
  refine forLoop_error (m := i.toNat + 1 + 1) ?_ (by omega)
  rw [forLoop, hrun, ok_bind, Nat.zero_add]
  exact hfault

/-- The second branch of `MapPage`, when its entry can be reached. -/
theorem createPage_spec {alloc : FrameAllocator} {phys : BitmapAllocator 4096} {t : Frame}
    {j : EntryIndex} {va pa page : Word} (haddr : s.translate va = some (entryAddr t j))
    (hpage : (if pa = 0 then alloc s.physManager else .ok (pa, s.physManager)) =
      .ok (page, phys)) :
    createPage alloc s va pa = .ok (s.withPage t j page phys) := by
  have haddr' : ({ s with physManager := phys } : Machine).translate va =
      some (entryAddr t j) := haddr
  by_cases hpa : pa = 0
  · rw [if_pos hpa] at hpage
    simp only [createPage, if_pos hpa, hpage, bind, Except.bind, writeWord, haddr', withPage]
  · rw [if_neg hpa] at hpage
    obtain ⟨rfl, rfl⟩ := Prod.mk.inj (Except.ok.inj hpage)
    simp only [createPage, if_neg hpa, bind, Except.bind, writeWord, haddr', withPage]

end Machine

end Muk
