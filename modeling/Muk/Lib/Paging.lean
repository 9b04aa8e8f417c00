import Muk.Lib.ByteMemory

/-!
# Two-level paging of a 32-bit machine

A virtual address names a directory entry, a table entry and an offset in a page.
An entry is present when its bit 0 is set; a present directory entry with bit 7
set maps 4 MiB at once, any other one points to the frame of a page table.
-/

namespace Muk

/-- The number of a 4 KiB frame of physical memory. -/
abbrev Frame := BitVec 20

/-- An index into a page directory or a page table. -/
abbrev EntryIndex := BitVec 10

/-- The page an address lies in, read as a frame number. -/
def frameOf (a : Word) : Frame := BitVec.ofNat 20 (a.toNat / 4096)

/-- The directory entry a virtual address goes through. -/
def pdIndex (va : Word) : EntryIndex := BitVec.ofNat 10 (va.toNat / 2 ^ 22)

/-- The table entry a virtual address goes through. -/
def ptIndex (va : Word) : EntryIndex := BitVec.ofNat 10 (va.toNat / 4096)

/-- Bit 0 of an entry. -/
def present (e : Word) : Bool := e.getLsbD 0

/-- Bit 7 of a directory entry: it maps 4 MiB. -/
def large (e : Word) : Bool := e.getLsbD 7

/-- The byte at an offset in a frame. -/
def physAddr (f : Frame) (offset : ℕ) : Word := BitVec.ofNat 32 (4096 * f.toNat + offset)

/-- The address of an entry of the directory or table in a frame. -/
def entryAddr (f : Frame) (i : EntryIndex) : Word := physAddr f (4 * i.toNat)

/-- An entry of the directory or table in a frame. -/
def entry (ram : Mem) (f : Frame) (i : EntryIndex) : Word := load32 ram (entryAddr f i)

/-- The physical address the paging unit finds for a virtual one, with the
directory in frame `cr3`; `none` is a page fault. -/
def translate (ram : Mem) (cr3 : Frame) (va : Word) : Option Word :=
  let pde := entry ram cr3 (pdIndex va)
  if !present pde then none
  else if large pde then
    some (BitVec.ofNat 32 (pde.toNat / 2 ^ 22 * 2 ^ 22 + va.toNat % 2 ^ 22))
  else
    let pte := entry ram (frameOf pde) (ptIndex va)
    if present pte then some (physAddr (frameOf pte) (va.toNat % 4096)) else none

/-! ## Addresses as numbers -/

/-- The frame of an address is its number of 4 KiB. -/
@[simp] theorem toNat_frameOf (a : Word) : (frameOf a).toNat = a.toNat / 4096 := by
  simp only [frameOf, BitVec.toNat_ofNat]
  omega

/-- The directory index of an address is its number of 4 MiB. -/
@[simp] theorem toNat_pdIndex (va : Word) : (pdIndex va).toNat = va.toNat / 2 ^ 22 := by
  simp only [pdIndex, BitVec.toNat_ofNat]
  omega

/-- The table index of an address is its page in these 4 MiB. -/
@[simp] theorem toNat_ptIndex (va : Word) : (ptIndex va).toNat = va.toNat / 4096 % 1024 := by
  simp only [ptIndex, BitVec.toNat_ofNat]

/-- An address in a frame is 4096 times the frame and the offset. -/
theorem toNat_physAddr (f : Frame) {offset : ℕ} (h : offset < 4096) :
    (physAddr f offset).toNat = 4096 * f.toNat + offset := by
  have := f.isLt
  simp only [physAddr, BitVec.toNat_ofNat]
  omega

/-- The entries of a table are four bytes each. -/
@[simp] theorem toNat_entryAddr (f : Frame) (i : EntryIndex) :
    (entryAddr f i).toNat = 4096 * f.toNat + 4 * i.toNat :=
  toNat_physAddr f (by have := i.isLt; omega)

/-- An address in a frame has this frame. -/
theorem frameOf_physAddr (f : Frame) {offset : ℕ} (h : offset < 4096) :
    frameOf (physAddr f offset) = f := by
  apply BitVec.eq_of_toNat_eq
  rw [toNat_frameOf, toNat_physAddr f h]
  omega

/-- The four bytes of an entry lie in the frame of its table. -/
theorem frameOf_of_near_entryAddr {f : Frame} {i : EntryIndex} {x : Word}
    (h : (x - entryAddr f i).toNat < 4) :
    frameOf x = f ∧ x.toNat % 4096 / 4 = i.toNat := by
  have hi := i.isLt
  have hf := f.isLt
  have haddr := toNat_entryAddr f i
  have hx : x.toNat = 4096 * f.toNat + 4 * i.toNat + (x - entryAddr f i).toNat := by
    rw [BitVec.toNat_sub] at h ⊢
    have := x.isLt
    omega
  refine ⟨?_, by omega⟩
  apply BitVec.eq_of_toNat_eq
  rw [toNat_frameOf]
  omega

/-! ## What a store does to the entries -/

/-- Storing an entry changes that entry and no other one. -/
theorem entry_store32 (ram : Mem) (f g : Frame) (i j : EntryIndex) (v : Word) :
    entry (store32 ram (entryAddr f i) v) g j =
      if g = f ∧ j = i then v else entry ram g j := by
  by_cases h : g = f ∧ j = i
  · obtain ⟨rfl, rfl⟩ := h
    rw [if_pos ⟨rfl, rfl⟩]
    exact load32_store32_same ..
  · rw [if_neg h]
    apply load32_congr
    intro x hx
    apply store32_frame
    by_contra hnear
    obtain ⟨hframe, hindex⟩ := frameOf_of_near_entryAddr hx
    obtain ⟨hframe', hindex'⟩ :=
      frameOf_of_near_entryAddr (show (x - entryAddr f i).toNat < 4 by omega)
    exact h ⟨hframe.symm.trans hframe', BitVec.eq_of_toNat_eq (by omega)⟩

/-- Storing an entry changes no byte outside the frame of its table. -/
theorem store32_entry_frame (ram : Mem) {f : Frame} (i : EntryIndex) (v : Word) {x : Word}
    (h : frameOf x ≠ f) : store32 ram (entryAddr f i) v x = ram x := by
  apply store32_frame
  by_contra hnear
  exact h (frameOf_of_near_entryAddr (i := i) (by omega)).1

/-- An entry depends on the bytes of its frame only. -/
theorem entry_congr {ram ram' : Mem} {f : Frame} (i : EntryIndex)
    (h : ∀ x, frameOf x = f → ram' x = ram x) : entry ram' f i = entry ram f i := by
  apply load32_congr
  intro x hx
  exact h x (frameOf_of_near_entryAddr hx).1

/-- A frame with every byte zero, the rest of memory as it was. -/
def zeroFrame (ram : Mem) (f : Frame) : Mem := fun x => if frameOf x = f then 0 else ram x

/-- Clearing a frame leaves the other frames alone. -/
theorem zeroFrame_ne (ram : Mem) {f : Frame} {x : Word} (h : frameOf x ≠ f) :
    zeroFrame ram f x = ram x := if_neg h

/-- Every entry of a zeroed frame is zero; the others are as they were. -/
theorem entry_zeroFrame (ram : Mem) (f g : Frame) (j : EntryIndex) :
    entry (zeroFrame ram f) g j = if g = f then 0 else entry ram g j := by
  by_cases h : g = f
  · subst g
    rw [if_pos rfl]
    have hbyte (k : ℕ) (hk : k < 4) : zeroFrame ram f (entryAddr f j + BitVec.ofNat 32 k) = 0 := by
      apply if_pos
      apply (frameOf_of_near_entryAddr (i := j) _).1
      bv_omega
    have h0 : zeroFrame ram f (entryAddr f j) = 0 := by simpa using hbyte 0 (by omega)
    unfold entry load32
    rw [h0, hbyte 1 (by omega), hbyte 2 (by omega), hbyte 3 (by omega)]
    rfl
  · rw [if_neg h]
    exact entry_congr j fun x hx => zeroFrame_ne ram (by rwa [hx])

/-- A frame whose first `n` words are zero, the rest of memory as it was. -/
def zeroPrefix (ram : Mem) (f : Frame) (n : ℕ) : Mem := fun x =>
  if frameOf x = f ∧ x.toNat % 4096 / 4 < n then 0 else ram x

/-- A prefix of no bytes is nothing to clear. -/
@[simp] theorem zeroPrefix_zero (ram : Mem) (f : Frame) : zeroPrefix ram f 0 = ram := by
  funext x
  simp [zeroPrefix]

/-- All 1024 words zeroed is the frame zeroed. -/
theorem zeroPrefix_all (ram : Mem) (f : Frame) : zeroPrefix ram f 1024 = zeroFrame ram f := by
  funext x
  have hlt : x.toNat % 4096 / 4 < 1024 := by omega
  simp [zeroPrefix, zeroFrame, hlt]

/-- Clearing a part of a frame leaves the other frames alone. -/
theorem zeroPrefix_ne (ram : Mem) {f : Frame} (n : ℕ) {x : Word} (h : frameOf x ≠ f) :
    zeroPrefix ram f n x = ram x := if_neg fun hx => h hx.1

/-- The entries of a frame that is zeroed in part. -/
theorem entry_zeroPrefix (ram : Mem) (f : Frame) (n : ℕ) (j : EntryIndex) :
    entry (zeroPrefix ram f n) f j = if j.toNat < n then 0 else entry ram f j := by
  have hbyte (k : ℕ) (hk : k < 4) : frameOf (entryAddr f j + BitVec.ofNat 32 k) = f ∧
      (entryAddr f j + BitVec.ofNat 32 k).toNat % 4096 / 4 = j.toNat :=
    frameOf_of_near_entryAddr (by bv_omega)
  split_ifs with hj
  · have hzero (k : ℕ) (hk : k < 4) :
        zeroPrefix ram f n (entryAddr f j + BitVec.ofNat 32 k) = 0 :=
      if_pos ⟨(hbyte k hk).1, by rw [(hbyte k hk).2]; exact hj⟩
    have h0 : zeroPrefix ram f n (entryAddr f j) = 0 := by simpa using hzero 0 (by omega)
    unfold entry load32
    rw [h0, hzero 1 (by omega), hzero 2 (by omega), hzero 3 (by omega)]
    rfl
  · apply load32_congr
    intro x hx
    refine if_neg fun h => hj ?_
    rw [← (frameOf_of_near_entryAddr hx).2]
    exact h.2

/-- Zeroing the next word of a frame in which a prefix is zero makes the prefix longer by that
word. -/
theorem store32_zeroPrefix (ram : Mem) (f : Frame) (j : EntryIndex) :
    store32 (zeroPrefix ram f j.toNat) (entryAddr f j) 0 = zeroPrefix ram f (j.toNat + 1) := by
  funext x
  rw [store32_apply]
  by_cases hx : (x - entryAddr f j).toNat < 4
  · obtain ⟨hframe, hindex⟩ := frameOf_of_near_entryAddr hx
    rw [if_pos hx, zeroPrefix, if_pos ⟨hframe, by omega⟩]
    simp [byteAt]
  · rw [if_neg hx]
    have hj := j.isLt
    have hne : frameOf x = f → x.toNat % 4096 / 4 ≠ j.toNat := by
      intro hframe heq
      apply hx
      have hpage := congrArg BitVec.toNat hframe
      rw [toNat_frameOf] at hpage
      have haddr := toNat_entryAddr f j
      have := x.isLt
      rw [BitVec.toNat_sub, haddr]
      omega
    have hiff : (frameOf x = f ∧ x.toNat % 4096 / 4 < j.toNat) ↔
        (frameOf x = f ∧ x.toNat % 4096 / 4 < j.toNat + 1) :=
      and_congr_right fun hframe => by have := hne hframe; omega
    simp only [zeroPrefix, hiff]

/-! ## Translations that only need a directory and a table entry -/

/-- A translation depends on the directory entry and, through it, on one table entry. -/
theorem translate_congr {ram ram' : Mem} {cr3 : Frame} {va : Word}
    (hpde : entry ram' cr3 (pdIndex va) = entry ram cr3 (pdIndex va))
    (hpte : present (entry ram cr3 (pdIndex va)) → ¬ large (entry ram cr3 (pdIndex va)) →
      entry ram' (frameOf (entry ram cr3 (pdIndex va))) (ptIndex va) =
        entry ram (frameOf (entry ram cr3 (pdIndex va))) (ptIndex va)) :
    translate ram' cr3 va = translate ram cr3 va := by
  simp only [translate, hpde]
  by_cases hp : present (entry ram cr3 (pdIndex va)) = true
  · by_cases hl : large (entry ram cr3 (pdIndex va)) = true
    · simp [hp, hl]
    · simp only [hpte hp hl]
  · simp [hp]

/-- No page is behind a directory entry that is not present. -/
theorem translate_of_absent {ram : Mem} {cr3 : Frame} {va : Word}
    (habsent : ¬ present (entry ram cr3 (pdIndex va))) : translate ram cr3 va = none := by
  simp [translate, habsent]

/-- A page behind a page table. -/
theorem translate_of_table {ram : Mem} {cr3 : Frame} {va : Word}
    (hp : present (entry ram cr3 (pdIndex va)))
    (hl : ¬ large (entry ram cr3 (pdIndex va))) :
    translate ram cr3 va =
      let pte := entry ram (frameOf (entry ram cr3 (pdIndex va))) (ptIndex va)
      if present pte then some (physAddr (frameOf pte) (va.toNat % 4096)) else none := by
  simp [translate, hp, hl]

/-- The entries a translation may read: those of the directory, and those of a
table the directory points to. -/
def IsTableFrame (ram : Mem) (cr3 g : Frame) : Prop :=
  g = cr3 ∨ ∃ i, present (entry ram cr3 i) ∧ ¬ large (entry ram cr3 i) ∧
    frameOf (entry ram cr3 i) = g

/-- If present entries stay, every translation that succeeds stays. -/
theorem translate_mono {ram ram' : Mem} {cr3 : Frame} {va p : Word}
    (hkeep : ∀ g j, IsTableFrame ram cr3 g → present (entry ram g j) →
      entry ram' g j = entry ram g j)
    (h : translate ram cr3 va = some p) : translate ram' cr3 va = some p := by
  have hp : present (entry ram cr3 (pdIndex va)) = true := by
    by_contra habsent
    rw [translate_of_absent habsent] at h
    exact nomatch h
  rw [translate_congr (hkeep cr3 _ (Or.inl rfl) hp) ?_, h]
  intro _ hl
  apply hkeep _ _ (Or.inr ⟨_, hp, hl, rfl⟩)
  rw [translate_of_table hp hl] at h
  by_contra hpte
  simp [hpte] at h

/-- Paging keeps the offset in the page. -/
theorem offset_of_translate {ram : Mem} {cr3 : Frame} {va p : Word}
    (h : translate ram cr3 va = some p) : p.toNat % 4096 = va.toNat % 4096 := by
  simp only [translate] at h
  split_ifs at h with hp hl hpte
  · have hpde := (entry ram cr3 (pdIndex va)).isLt
    rw [← Option.some.inj h, BitVec.toNat_ofNat]
    omega
  · rw [← Option.some.inj h, toNat_physAddr _ (by omega)]
    omega

/-- Moving inside a page moves the physical address by the same distance. -/
theorem translate_same_page {ram : Mem} {cr3 f : Frame} {va va' : Word} {offset : ℕ}
    (hpage : frameOf va' = frameOf va) (hoffset : va'.toNat % 4096 = offset)
    (h : translate ram cr3 va = some (physAddr f 0)) :
    translate ram cr3 va' = some (physAddr f offset) := by
  have hva := offset_of_translate h
  rw [toNat_physAddr f (by omega)] at hva
  have hpage' : va'.toNat / 4096 = va.toNat / 4096 := by
    rw [← toNat_frameOf, ← toNat_frameOf, hpage]
  have hpd : pdIndex va' = pdIndex va := by
    apply BitVec.eq_of_toNat_eq
    simp only [toNat_pdIndex]
    omega
  have hpt : ptIndex va' = ptIndex va := by
    apply BitVec.eq_of_toNat_eq
    simp only [toNat_ptIndex, hpage']
  unfold translate at h ⊢
  rw [hpd, hpt]
  by_cases hp : present (entry ram cr3 (pdIndex va)) = true
  · by_cases hl : large (entry ram cr3 (pdIndex va)) = true
    · simp only [hp, hl, Bool.not_true, Bool.false_eq_true, if_false, if_true,
        Option.some.injEq] at h ⊢
      have hbase := congrArg BitVec.toNat h
      rw [toNat_physAddr f (by omega), BitVec.toNat_ofNat] at hbase
      apply BitVec.eq_of_toNat_eq
      rw [toNat_physAddr f (by omega), BitVec.toNat_ofNat]
      have := (entry ram cr3 (pdIndex va)).isLt
      omega
    · have hzero : va.toNat % 4096 = 0 := by omega
      simp only [hp, hl, Bool.not_true, Bool.false_eq_true, if_false, hzero, hoffset] at h ⊢
      split_ifs at h ⊢ with hpte
      have hf := congrArg frameOf (Option.some.inj h)
      rw [frameOf_physAddr _ (by omega), frameOf_physAddr _ (by omega)] at hf
      rw [hf]
  · simp [hp] at h

end Muk
