import Muk.Memory.MapPage

/-!
# Mapping the framebuffer

`Graphics::Setup` maps the framebuffer page by page to `0xD0000000`, by calls of `MapPage` with
the physical address of each page. Every 4 MiB a call also makes a page table, which comes into
sight through the recursive directory entry; no other address is translated differently.
-/

namespace Muk

/-- The fields of `multiboot_info_t` that say where the framebuffer lies. -/
structure FramebufferInfo where
  framebufferAddr : BitVec 64
  framebufferPitch : Word
  framebufferHeight : Word

/-- The number of bytes of the framebuffer. -/
def FramebufferInfo.size (mboot : FramebufferInfo) : ℕ :=
  mboot.framebufferHeight.toNat * mboot.framebufferPitch.toNat

/-- The number of page tables that the framebuffer lies under. -/
def FramebufferInfo.tables (mboot : FramebufferInfo) : ℕ := (mboot.size + (2 ^ 22 - 1)) / 2 ^ 22

namespace Machine

/-- `fb_addr_base` -/
def fbAddrBase : Word := 0xD0000000

/-- The loop of `Graphics::Setup`. A run takes each of the `2 ^ 20` page numbers at most once,
or never ends. -/
def mapFramebuffer (fbPhysLoc fbSize : Word) (s : Machine) (pgNum : Word) : ℕ → Except Fault Machine
  | 0 => .error .diverges
  | fuel + 1 =>
    if pgNum * 4096#32 < fbSize then do
      let s ← s.mapPage (fbAddrBase + pgNum * 4096#32) (fbPhysLoc + pgNum * 4096#32)
      mapFramebuffer fbPhysLoc fbSize s (pgNum + 1#32) fuel
    else .ok s

/-- The part of `Graphics::Setup` that remaps the framebuffer. -/
def setupFramebuffer (s : Machine) (mboot : FramebufferInfo) : Except Fault Machine :=
  let fbPhysLoc := mboot.framebufferAddr.setWidth 32
  let fbSize := mboot.framebufferHeight * mboot.framebufferPitch
  mapFramebuffer fbPhysLoc fbSize s 0 (2 ^ 20 + 1)

variable {s t : Machine} {phys k n : ℕ}

/-- The directory entry of the page table number `q` of the framebuffer. -/
def fbEntry (q : ℕ) : EntryIndex := BitVec.ofNat 10 (832 + q)

/-- How many of the first `n` page tables of the framebuffer are missing. -/
def missingTables (s : Machine) (n : ℕ) : ℕ :=
  ((Finset.range n).filter fun q => present (s.pde (fbEntry q)) = false).card

/-- The state `t` that mapping `k` pages of a framebuffer at `phys` makes of `s`, with enough
free pages for the page tables that are still missing of the first `n`. -/
structure Remapped (s : Machine) (phys n k : ℕ) (t : Machine) : Prop where
  good : t.Good
  mapped : ∀ o < 4096 * k,
    t.translate (fbAddrBase + BitVec.ofNat 32 o) = some (BitVec.ofNat 32 (phys + o))
  unmapped : ∀ va : Word, 0xD0000000 + 4096 * k ≤ va.toNat → va.toNat < 0xE0000000 →
    t.translate va = none
  other : ∀ va : Word, va.toNat < 0xD0000000 ∨ 0xE0000000 ≤ va.toNat → pdIndex va ≠ 1023 →
    t.translate va = s.translate va
  pde : ∀ i : EntryIndex, i.toNat < 832 ∨ 896 ≤ i.toNat → t.pde i = s.pde i
  pages : missingTables t n ≤ t.physManager.free.ncard

/-- An address of the framebuffer. -/
theorem toNat_fbAddr {o : ℕ} (ho : o < 0x10000000) :
    (fbAddrBase + BitVec.ofNat 32 o).toNat = 0xD0000000 + o := by
  have hbase : fbAddrBase.toNat = 0xD0000000 := rfl
  rw [BitVec.toNat_add, hbase, BitVec.toNat_ofNat]
  omega

/-- The directory entries of the frame buffer are those from 832 on. -/
theorem toNat_fbEntry {q : ℕ} (hq : q < 64) : (fbEntry q).toNat = 832 + q := by
  rw [fbEntry, toNat_ofNat_of_lt (by omega)]

/-- No address below the end of the framebuffer's region is in the recursive window. -/
theorem pdIndex_ne_recursive {va : Word} (hva : va.toNat < 0xE0000000) : pdIndex va ≠ 1023 := by
  intro heq
  have hnat := congrArg BitVec.toNat heq
  rw [toNat_pdIndex] at hnat
  change _ = 1023 at hnat
  omega

/-- The directory entry that page number `k` of the framebuffer goes through. -/
theorem pdIndex_fbAddr (hk : k < 2 ^ 16) :
    pdIndex (fbAddrBase + BitVec.ofNat 32 (4096 * k)) = fbEntry (k / 1024) := by
  apply BitVec.eq_of_toNat_eq
  rw [toNat_pdIndex, toNat_fbAddr (by omega), toNat_fbEntry (by omega)]
  omega

/-- An address under a 4 MiB entry is mapped. -/
theorem translate_of_large {va : Word} (hp : present (s.pde (pdIndex va)))
    (hl : large (s.pde (pdIndex va))) : s.translate va ≠ none := by
  rw [pde] at hp hl
  simp [translate, Muk.translate, hp, hl]

/-- How many tables are missing depends on which entries are present, and on nothing else. -/
theorem missingTables_congr (h : ∀ i, present (t.pde i) = present (s.pde i)) (n : ℕ) :
    missingTables t n = missingTables s n := by
  simp only [missingTables, h]

/-- A new table for one of the missing ones. -/
theorem missingTables_succ {q : ℕ} (hq : q < n) (hn : n ≤ 64)
    (habsent : ¬ present (s.pde (fbEntry q))) (hpresent : present (t.pde (fbEntry q)))
    (hother : ∀ i ≠ fbEntry q, t.pde i = s.pde i) : missingTables s n = missingTables t n + 1 := by
  have herase : ((Finset.range n).filter fun q => present (t.pde (fbEntry q)) = false) =
      ((Finset.range n).filter fun q => present (s.pde (fbEntry q)) = false).erase q := by
    ext r
    simp only [Finset.mem_filter, Finset.mem_range, Finset.mem_erase]
    by_cases hrq : r = q
    · subst hrq
      simp [hpresent]
    · have hne (hr : r < n) : fbEntry r ≠ fbEntry q := by
        intro heq
        have hnat := congrArg BitVec.toNat heq
        rw [toNat_fbEntry (by omega), toNat_fbEntry (by omega)] at hnat
        omega
      constructor
      · rintro ⟨hr, hp⟩
        exact ⟨hrq, hr, by rwa [hother _ (hne hr)] at hp⟩
      · rintro ⟨-, hr, hp⟩
        exact ⟨hr, by rwa [hother _ (hne hr)]⟩
  have hmem : q ∈ (Finset.range n).filter fun q => present (s.pde (fbEntry q)) = false := by
    rw [Finset.mem_filter, Finset.mem_range]
    exact ⟨hq, Bool.eq_false_iff.mpr habsent⟩
  rw [missingTables, missingTables, herase, Finset.card_erase_of_mem hmem]
  have hpos := Finset.card_pos.mpr ⟨q, hmem⟩
  omega

/-- A table that is missing is one of those that there must be free pages for. -/
theorem missingTables_pos {q : ℕ} (hq : q < n) (habsent : ¬ present (s.pde (fbEntry q))) :
    0 < missingTables s n :=
  Finset.card_pos.mpr ⟨q, Finset.mem_filter.mpr
    ⟨Finset.mem_range.mpr hq, Bool.eq_false_iff.mpr habsent⟩⟩

/-- A call of `MapPage` for a given page takes a free page if it makes one of the missing tables. -/
theorem missingTables_of_steps {u : Machine} {q : ℕ} {j : EntryIndex} {pa : Word} (hq : q < n)
    (hn : n ≤ 64) (hpa : pa ≠ 0) (htable : TableStep s (fbEntry q) u)
    (hpage : PageStep u (fbEntry q) j pa t) (hpresent : present (t.pde (fbEntry q)))
    (hpde : ∀ i ≠ fbEntry q, t.pde i = s.pde i)
    (hpages : missingTables s n ≤ s.physManager.free.ncard) :
    missingTables t n ≤ t.physManager.free.ncard := by
  have hphys : t.physManager.free = u.physManager.free := by
    cases hpage with
    | present => rfl
    | given => rfl
    | fresh _ hzero => exact absurd hzero hpa
  rw [hphys]
  cases htable with
  | present htable' =>
    rw [missingTables_congr fun i => ?_]
    · exact hpages
    · by_cases hi : i = fbEntry q
      · rw [hi, hpresent, htable'.1]
      · rw [hpde i hi]
  | @create f phys' habsent hf hphys' =>
    have hcard : phys'.free.ncard + 1 = s.physManager.free.ncard := by
      rw [hphys']
      exact Set.ncard_sdiff_singleton_add_one hf s.physManager.finite_free
    have hsucc := missingTables_succ hq hn habsent hpresent hpde
    change _ ≤ phys'.free.ncard
    omega

/-- One pass of the loop maps the next page of the framebuffer and keeps what was mapped before
it. -/
theorem Remapped.pass (h : Remapped s phys n k t) (hk : k < 2 ^ 16) (hkn : k / 1024 < n)
    (hn : n ≤ 64) (halign : phys % 4096 = 0) (hne : phys ≠ 0)
    (hfit : phys + 4096 * (k + 1) ≤ 2 ^ 32) :
    ∃ t', t.mapPage (fbAddrBase + BitVec.ofNat 32 (4096 * k)) (BitVec.ofNat 32 (phys + 4096 * k)) =
        .ok t' ∧ Remapped s phys n (k + 1) t' := by
  let va := fbAddrBase + BitVec.ofNat 32 (4096 * k)
  let pa : Word := BitVec.ofNat 32 (phys + 4096 * k)
  have hva : va.toNat = 0xD0000000 + 4096 * k := toNat_fbAddr (by omega)
  have hpa : pa.toNat = phys + 4096 * k := toNat_ofNat_of_lt (by omega)
  have hpd : pdIndex va = fbEntry (k / 1024) := pdIndex_fbAddr hk
  have hlast : pdIndex va ≠ 1023 := pdIndex_ne_recursive (by omega)
  have hmiss : t.translate va = none := h.unmapped va (by omega) (by omega)
  have hlarge : ¬ (present (t.pde (pdIndex va)) ∧ large (t.pde (pdIndex va))) :=
    fun ⟨hp, hl⟩ => translate_of_large hp hl hmiss
  have hpaNe : pa ≠ 0 := by
    intro hzero
    have hzeroNat : (0 : Word).toNat = 0 := rfl
    rw [hzero, hzeroNat] at hpa
    omega
  have hfree (habsent : ¬ present (t.pde (pdIndex va))) : t.physManager.free.Nonempty := by
    have hpos := missingTables_pos hkn (hpd ▸ habsent)
    exact Set.nonempty_of_ncard_ne_zero (by have := h.pages; omega)
  obtain ⟨u, t', htable, hpage, hrun⟩ := mapPage_given h.good hlast hlarge hfree hpaNe
  have hmapped := mapped_of_steps h.good hlast (by omega) htable hpage
  obtain ⟨hpresent, hpde⟩ := pde_of_steps h.good hlast htable hpage
  have hframe (x : Word) : frameOf x = frameOf va ↔ x.toNat / 4096 = 0xD0000 + k := by
    rw [← BitVec.toNat_inj, toNat_frameOf, toNat_frameOf, hva]
    omega
  refine ⟨t', hrun, hmapped.good, fun o ho => ?_, fun x hlow hhigh => ?_, fun x hx hxpd => ?_,
    fun i hi => ?_, ?_⟩
  · have hx := toNat_fbAddr (show o < 0x10000000 by omega)
    by_cases hold : o < 4096 * k
    · rw [hmapped.other _ ((hframe _).not.mpr (by omega)) (pdIndex_ne_recursive (by omega))]
      exact h.mapped o hold
    · rw [hmapped.given hmiss hpaNe _ ((hframe _).mpr (by omega))]
      congr 1
      apply BitVec.eq_of_toNat_eq
      rw [toNat_physAddr _ (by omega), toNat_frameOf, hpa, hx, BitVec.toNat_ofNat]
      omega
  · rw [hmapped.other x ((hframe x).not.mpr (by omega)) (pdIndex_ne_recursive hhigh)]
    exact h.unmapped x (by omega) hhigh
  · rw [hmapped.other x ((hframe x).not.mpr (by omega)) hxpd]
    exact h.other x hx hxpd
  · have hentry : (pdIndex va).toNat = 832 + k / 1024 := by rw [hpd, toNat_fbEntry (by omega)]
    rw [hpde i fun heq => by rw [heq] at hi; omega]
    exact h.pde i hi
  · rw [hpd] at htable hpage hpresent hpde
    exact missingTables_of_steps hkn hn hpaNe htable hpage hpresent hpde h.pages

/-- Before the loop no page is remapped, and there are frames for the tables that are missing. -/
theorem Remapped.zero (hgood : s.Good)
    (hempty : ∀ va : Word, 0xD0000000 ≤ va.toNat → va.toNat < 0xE0000000 → s.translate va = none)
    (hpages : missingTables s n ≤ s.physManager.free.ncard) (phys : ℕ) :
    Remapped s phys n 0 s :=
  ⟨hgood, fun _ ho => absurd ho (Nat.not_lt_zero _), hempty, fun _ _ _ => rfl, fun _ _ => rfl,
    hpages⟩

/-- The loop maps all pages that the framebuffer lies in. -/
theorem Remapped.run {size : ℕ} (hsize : size ≤ 0x10000000) (halign : phys % 4096 = 0)
    (hne : phys ≠ 0) (hfit : phys + size < 2 ^ 32) (fuel : ℕ)
    (h : Remapped s phys ((size + (2 ^ 22 - 1)) / 2 ^ 22) k t) (hk : k ≤ (size + 4095) / 4096)
    (hfuel : (size + 4095) / 4096 < k + fuel) :
    ∃ t', mapFramebuffer (BitVec.ofNat 32 phys) (BitVec.ofNat 32 size) t (BitVec.ofNat 32 k) fuel =
        .ok t' ∧ Remapped s phys ((size + (2 ^ 22 - 1)) / 2 ^ 22) ((size + 4095) / 4096) t' := by
  induction fuel generalizing k t with
  | zero => omega
  | succ fuel ih =>
    have hoffset : BitVec.ofNat 32 k * 4096#32 = BitVec.ofNat 32 (4096 * k) := by
      rw [Nat.mul_comm, BitVec.ofNat_mul]
    have hcond : BitVec.ofNat 32 (4096 * k) < BitVec.ofNat 32 size ↔ 4096 * k < size := by
      rw [BitVec.lt_def, BitVec.toNat_ofNat, BitVec.toNat_ofNat]
      omega
    rw [mapFramebuffer, hoffset]
    by_cases hmore : 4096 * k < size
    · obtain ⟨t', hmap, h'⟩ := h.pass (by omega) (by omega) (by omega) halign hne (by omega)
      rw [if_pos (hcond.mpr hmore), ← BitVec.ofNat_add, hmap, ok_bind, ← BitVec.ofNat_add]
      exact ih h' (by omega) (by omega)
    · rw [if_neg (hcond.not.mpr hmore)]
      obtain rfl : k = (size + 4095) / 4096 := by omega
      exact ⟨t, rfl, h⟩

/-- `Graphics::Setup` returns with every page of the framebuffer mapped to the address that the boot
loader gave. -/
theorem setupFramebuffer_remapped {mboot : FramebufferInfo} (hgood : s.Good)
    (hsize : mboot.size ≤ 0x10000000) (halign : mboot.framebufferAddr.toNat % 4096 = 0)
    (hne : mboot.framebufferAddr ≠ 0) (hfit : mboot.framebufferAddr.toNat + mboot.size < 2 ^ 32)
    (hempty : ∀ va : Word, 0xD0000000 ≤ va.toNat → va.toNat < 0xE0000000 → s.translate va = none)
    (hpages : missingTables s mboot.tables ≤ s.physManager.free.ncard) :
    ∃ s', s.setupFramebuffer mboot = .ok s' ∧
      Remapped s mboot.framebufferAddr.toNat mboot.tables ((mboot.size + 4095) / 4096) s' := by
  have hphys : mboot.framebufferAddr.setWidth 32 = BitVec.ofNat 32 mboot.framebufferAddr.toNat := by
    apply BitVec.eq_of_toNat_eq
    rw [BitVec.toNat_setWidth, BitVec.toNat_ofNat]
  have hfbSize : mboot.framebufferHeight * mboot.framebufferPitch = BitVec.ofNat 32 mboot.size := by
    apply BitVec.eq_of_toNat_eq
    rw [BitVec.toNat_mul, BitVec.toNat_ofNat, FramebufferInfo.size]
  have hne' : mboot.framebufferAddr.toNat ≠ 0 := fun h => hne (BitVec.eq_of_toNat_eq h)
  rw [setupFramebuffer, hphys, hfbSize]
  exact Remapped.run hsize halign hne' hfit (2 ^ 20 + 1) (Remapped.zero hgood hempty hpages _)
    (Nat.zero_le _) (by omega)

/-- **`Graphics::Setup` maps the framebuffer.** With nothing mapped from `0xD0000000` up to
`0xE0000000` and enough free pages for the page tables, every byte of the framebuffer is mapped at
its offset from `0xD0000000`. No other translation changes outside these addresses and the
recursive window of their page tables, from `0xFFF40000` up to `0xFFF80000`. -/
theorem setupFramebuffer_spec {mboot : FramebufferInfo} (hgood : s.Good)
    (hsize : mboot.size ≤ 0x10000000) (halign : mboot.framebufferAddr.toNat % 4096 = 0)
    (hne : mboot.framebufferAddr ≠ 0) (hfit : mboot.framebufferAddr.toNat + mboot.size < 2 ^ 32)
    (hempty : ∀ va : Word, 0xD0000000 ≤ va.toNat → va.toNat < 0xE0000000 → s.translate va = none)
    (hpages : missingTables s mboot.tables ≤ s.physManager.free.ncard) :
    ∃ s', s.setupFramebuffer mboot = .ok s' ∧
      (∀ o < mboot.size, s'.translate (fbAddrBase + BitVec.ofNat 32 o) =
        some (BitVec.ofNat 32 (mboot.framebufferAddr.toNat + o))) ∧
      ∀ va : Word, va.toNat < 0xD0000000 ∨ 0xE0000000 ≤ va.toNat →
        va.toNat < 0xFFF40000 ∨ 0xFFF80000 ≤ va.toNat → s'.translate va = s.translate va := by
  obtain ⟨s', hrun, h⟩ := setupFramebuffer_remapped hgood hsize halign hne hfit hempty hpages
  refine ⟨s', hrun, fun o ho => h.mapped o (by omega), fun va hva hwindow => ?_⟩
  by_cases hpd : pdIndex va = 1023
  · have hbase := congrArg BitVec.toNat hpd
    rw [toNat_pdIndex] at hbase
    change _ = 1023 at hbase
    have hpde : s'.pde (ptIndex va) = s.pde (ptIndex va) := by
      apply h.pde
      rw [toNat_ptIndex]
      omega
    rw [translate_recursive h.good hpd, translate_recursive hgood hpd, hpde]
  · exact h.other va hva hpd

/-! ## After boot -/

/-- A framebuffer of 1024 by 768 pixels of 32 bits. -/
def bootFramebuffer : FramebufferInfo where
  framebufferAddr := 0xFD000000
  framebufferPitch := 4096
  framebufferHeight := 768

/-- After `Memory::Setup` the framebuffer can be mapped. -/
theorem SetupState.framebuffer {kernelEnd : Word} (h : s.SetupState kernelEnd) (va : Word)
    (hlow : 0xD0000000 ≤ va.toNat) (hhigh : va.toNat < 0xE0000000) : s.translate va = none := by
  have hpd := toNat_pdIndex va
  refine translate_of_absent (h.others_absent _ (fun heq => ?_) fun heq => ?_)
  · rw [heq] at hpd
    change 1023 = _ at hpd
    omega
  · rw [heq] at hpd
    change 768 = _ at hpd
    omega

/-- There is a page for the page table of such a framebuffer. -/
theorem boot_missingTables : ∃ s,
    bootMachine.setup BitmapAllocator.oneEntryMap 0x200000 0xC0105000 0x105000 = .ok s ∧
      s.SetupState 0x200000 ∧
        missingTables s bootFramebuffer.tables ≤ s.physManager.free.ncard := by
  obtain ⟨s, hsetup, hstate, hfree⟩ :=
    setup_spec bootMachine_booted BitmapAllocator.oneEntryMap_low (by decide)
  refine ⟨s, hsetup, hstate, ?_⟩
  have htables : bootFramebuffer.tables = 1 := by decide
  have hmissing : missingTables s 1 ≤ 1 := Finset.card_filter_le (Finset.range 1) _
  rw [BitmapAllocator.oneEntryMap_available] at hfree
  rw [htables, hfree, ← Finset.coe_Ioo, Set.ncard_coe_finset, Nat.card_Ioo]
  omega

/-- After boot, the framebuffer is mapped. -/
theorem setupFramebuffer_boot : ∃ s s',
    bootMachine.setup BitmapAllocator.oneEntryMap 0x200000 0xC0105000 0x105000 = .ok s ∧
      s.setupFramebuffer bootFramebuffer = .ok s' ∧
      (∀ o < 0x300000, s'.translate (fbAddrBase + BitVec.ofNat 32 o) =
        some (BitVec.ofNat 32 (0xFD000000 + o))) ∧
      ∀ va : Word, va.toNat < 0xD0000000 ∨ 0xE0000000 ≤ va.toNat →
        va.toNat < 0xFFF40000 ∨ 0xFFF80000 ≤ va.toNat → s'.translate va = s.translate va := by
  obtain ⟨s, hsetup, hstate, hpages⟩ := boot_missingTables
  obtain ⟨s', hrun, hmapped, hother⟩ := setupFramebuffer_spec hstate.good (by decide) (by decide)
    (by decide) (by decide) hstate.framebuffer hpages
  exact ⟨s, s', hsetup, hrun, hmapped, hother⟩

/-- After boot, the page table of the framebuffer comes into sight at `0xFFF40000`. -/
theorem setupFramebuffer_window : ∃ s,
    bootMachine.setup BitmapAllocator.oneEntryMap 0x200000 0xC0105000 0x105000 = .ok s ∧ s.Good ∧
      (∀ va : Word, 0xD0000000 ≤ va.toNat → va.toNat < 0xE0000000 → s.translate va = none) ∧
      missingTables s bootFramebuffer.tables ≤ s.physManager.free.ncard ∧
      ¬ ∃ s', s.setupFramebuffer bootFramebuffer = .ok s' ∧
        ∀ va : Word, va.toNat < 0xD0000000 ∨ 0xE0000000 ≤ va.toNat →
          s'.translate va = s.translate va := by
  obtain ⟨s, hsetup, hstate, hpages⟩ := boot_missingTables
  refine ⟨s, hsetup, hstate.good, hstate.framebuffer, hpages, ?_⟩
  rintro ⟨t, hrun, hsame⟩
  obtain ⟨s', hrun', h⟩ := setupFramebuffer_remapped hstate.good (by decide) (by decide)
    (by decide) (by decide) hstate.framebuffer hpages
  obtain rfl : t = s' := Except.ok.inj (hrun.symm.trans hrun')
  have hpt : ptIndex 0xFFF40000 = 832 := by decide
  have hpd : pdIndex 0xFFF40000 = 1023 := by decide
  have hbefore : s.translate 0xFFF40000 = none := by
    rw [translate_recursive hstate.good hpd, hpt]
    exact if_neg (hstate.others_absent 832 (by decide) (by decide))
  have hfirst : pdIndex fbAddrBase = 832 := by decide
  have hpresent : present (t.pde 832) := by
    by_contra habsent
    have hbyte := h.mapped 0 (by decide)
    have hnone : t.translate fbAddrBase = none := translate_of_absent (hfirst ▸ habsent)
    rw [BitVec.add_zero, hnone] at hbyte
    exact nomatch hbyte
  have hafter := hsame 0xFFF40000 (by decide)
  rw [hbefore, translate_recursive h.good hpd, hpt, if_pos hpresent] at hafter
  exact nomatch hafter

end Machine

end Muk
