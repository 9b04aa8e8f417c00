import Muk.Memory.Setup
import Mathlib.Tactic.IntervalCases

/-!
# Into the upper half

The kernel is linked `0xC0000000` above the place where the boot loader puts it, and the loader
enters it with paging off. The boot code maps its first 4 MiB twice, switches paging on while it
still runs in the lower copy, jumps to the upper one, and takes the lower one away. From one
instruction to the next the processor may keep directory entries in its translation buffer, or
drop them, as it likes.
-/

namespace Muk

/-- The instructions of the boot code. -/
inductive BootInstr where
  | movEaxCr4
  | movCr4Eax
  | movCr3Eax
  | movEaxCr0
  | movCr0Eax
  | movEax (imm : Word)
  | orEax (imm : Word)
  | leaEcx (address : Word)
  | jmpEcx
  | cli
  | finit
  | movDword (address imm : Word)
  | invlpg (address : Word)
  | addEbx (imm : Word)
  | movEsp (imm : Word)
  | push (imm : Word)
  | pushEbx
  | call (address : Word)

/-- `KERNEL_VIRTUAL_OFFSET` -/
def kernelVirtualOffset : Word := 0xC0000000

/-- The linked kernel: the symbols that the boot code uses, the lengths of its instructions, and
what the bytes at a physical address are decoded to. -/
structure BootImage where
  bootstrapper : Word
  boot : Word
  pdVirtualAddress : Word
  kstack : Word
  kernelPhysStart : Word
  kernelPhysEnd : Word
  kernelMain : Word
  size : BootInstr → ℕ
  fetched : Word → Option BootInstr

namespace BootImage

/-- `PDPhysicalAddress` -/
def pdPhysicalAddress (b : BootImage) : Word := b.pdVirtualAddress - kernelVirtualOffset

/-- `_bootstrapper`, and `_boot` after it -/
def code (b : BootImage) : List BootInstr :=
  [.movEaxCr4, .orEax 0x00000010, .movCr4Eax, -- 4 MiB pages
    .movEax b.pdPhysicalAddress, .movCr3Eax,
    .movEaxCr0, .orEax 0x80000000, .movCr0Eax, -- paging
    .leaEcx b.boot, .jmpEcx,
    .cli, .finit,
    .movDword b.pdVirtualAddress 0, .invlpg 0,
    .addEbx kernelVirtualOffset, .movEsp b.kstack,
    .push b.kernelPhysEnd, .push b.kernelPhysStart, .pushEbx,
    .call b.kernelMain]

/-- The address to which an instruction is linked. -/
def address (b : BootImage) (k : ℕ) : Word :=
  b.bootstrapper + BitVec.ofNat 32 ((b.code.take k).map b.size).sum

end BootImage

/-- The processor but for its translation buffer, and memory. -/
structure BootCore where
  ram : Mem
  cr0 : Word
  cr3 : Word
  cr4 : Word
  eax : Word
  ebx : Word
  ecx : Word
  esp : Word
  eip : Word
  interrupts : Bool

namespace BootCore

/-- A store through a translation. -/
def store (c : BootCore) (translate : Word → Option Word) (a w : Word) : Except Fault BootCore :=
  match translate a with
  | some p => .ok { c with ram := store32 c.ram p w }
  | none => .error .pageFault

def push (c : BootCore) (translate : Word → Option Word) (w : Word) : Except Fault BootCore :=
  { c with esp := c.esp - 4#32 }.store translate (c.esp - 4#32) w

/-- One instruction, with `eip` behind it already. -/
def exec (c : BootCore) (translate : Word → Option Word) : BootInstr → Except Fault BootCore
  | .movEaxCr4 => .ok { c with eax := c.cr4 }
  | .movCr4Eax => .ok { c with cr4 := c.eax }
  | .movCr3Eax => .ok { c with cr3 := c.eax }
  | .movEaxCr0 => .ok { c with eax := c.cr0 }
  | .movCr0Eax => .ok { c with cr0 := c.eax }
  | .movEax imm => .ok { c with eax := imm }
  | .orEax imm => .ok { c with eax := c.eax ||| imm }
  | .leaEcx address => .ok { c with ecx := address }
  | .jmpEcx => .ok { c with eip := c.ecx }
  | .cli => .ok { c with interrupts := false }
  | .finit => .ok c
  | .movDword address imm => c.store translate address imm
  | .invlpg _ => .ok c
  | .addEbx imm => .ok { c with ebx := c.ebx + imm }
  | .movEsp imm => .ok { c with esp := imm }
  | .push imm => c.push translate imm
  | .pushEbx => c.push translate c.ebx
  | .call address => { c with eip := address }.push translate c.eip

/-- Bit 31 of `cr0` -/
def paging (c : BootCore) : Bool := c.cr0.getLsbD 31

/-- Bit 4 of `cr4`: a directory entry may map 4 MiB. -/
def largePages (c : BootCore) : Bool := c.cr4.getLsbD 4

/-- The directory entry in memory. -/
def pde (c : BootCore) (i : EntryIndex) : Word := entry c.ram (frameOf c.cr3) i

/-- The physical address that a directory entry leads to. -/
def through (c : BootCore) (pde va : Word) : Option Word :=
  if !present pde then none
  else if c.largePages && large pde then
    some (BitVec.ofNat 32 (pde.toNat / 2 ^ 22 * 2 ^ 22 + va.toNat % 2 ^ 22))
  else
    let pte := entry c.ram (frameOf pde) (ptIndex va)
    if present pte then some (physAddr (frameOf pte) (va.toNat % 4096)) else none

end BootCore

/-- What the processor does with its buffer before an instruction: the entries that it drops, and
those that it reads in. -/
structure CacheChoice where
  drop : EntryIndex → Bool
  fill : EntryIndex → Bool

/-- The processor with the directory entries in its translation buffer. -/
structure BootCpu where
  core : BootCore
  tlb : EntryIndex → Option Word

namespace BootCpu

/-- The translation of an address: the buffer goes before memory. -/
def translate (s : BootCpu) (va : Word) : Option Word :=
  if s.core.paging then
    s.core.through ((s.tlb (pdIndex va)).getD (s.core.pde (pdIndex va))) va
  else some va

/-- The buffer before an instruction. -/
def cache (s : BootCpu) (o : CacheChoice) : BootCpu :=
  { s with tlb := fun i =>
      let kept := if o.drop i then none else s.tlb i
      if s.core.paging && o.fill i && present (s.core.pde i) then some (kept.getD (s.core.pde i))
      else kept }

/-- The buffer after an instruction. -/
def flush (tlb : EntryIndex → Option Word) : BootInstr → EntryIndex → Option Word
  | .movCr4Eax | .movCr3Eax | .movCr0Eax => fun _ => none
  | .invlpg address => fun i => if i = pdIndex address then none else tlb i
  | _ => tlb

/-- Fetch and execute one instruction. -/
def step (b : BootImage) (s : BootCpu) (o : CacheChoice) : Except Fault BootCpu := do
  let s := s.cache o
  match s.translate s.core.eip with
  | none => .error .pageFault
  | some p =>
    match b.fetched p with
    | none => .error .outOfBounds
    | some i =>
      let core ← { s.core with eip := s.core.eip + BitVec.ofNat 32 (b.size i) }.exec s.translate i
      .ok { core := core, tlb := flush s.tlb i }

end BootCpu

/-! ## The code on flat memory

All addresses that the boot code uses lie in one of the two copies of the first 4 MiB, so it
runs as if the upper copy were the lower one. -/

/-- The place in the lower copy. -/
def lower (va : Word) : Word :=
  if 0xC0000000 ≤ va.toNat then va - kernelVirtualOffset else va

/-- A low address is the same before and after the move to the upper half. -/
theorem lower_of_low {va : Word} (h : va.toNat < 0x400000) : lower va = va := if_neg (by omega)

/-- An address of the upper half is lowered by the offset of the kernel. -/
theorem lower_of_high {va : Word} (h : 0xC0000000 ≤ va.toNat) :
    lower va = va - kernelVirtualOffset := if_pos h

namespace BootCore

/-- The address that an instruction stores to. -/
def accessed (c : BootCore) : BootInstr → Option Word
  | .movDword address _ => some address
  | .push _ | .pushEbx | .call _ => some (c.esp - 4#32)
  | _ => none

/-- A store on flat memory. -/
def flatStore (c : BootCore) (a w : Word) : BootCore :=
  { c with ram := store32 c.ram (lower a) w }

/-- Where the translation is the flat one, a store is that to the lowered address. -/
theorem store_flat {c : BootCore} {translate : Word → Option Word} {a w : Word}
    (h : translate a = some (lower a)) : c.store translate a w = .ok (c.flatStore a w) := by
  rw [store, h]
  rfl

/-- One instruction on flat memory. -/
def execFlat (c : BootCore) (i : BootInstr) : BootCore :=
  match c.exec (fun va => some (lower va)) i with
  | .ok c' => c'
  | .error _ => c

/-- An instruction depends on the translation of the address that it stores to. -/
theorem exec_eq_flat {c : BootCore} {translate : Word → Option Word} {i : BootInstr}
    (h : ∀ a, c.accessed i = some a → translate a = some (lower a)) :
    c.exec translate i = .ok (c.execFlat i) := by
  cases i with
  | movDword address imm => simp only [execFlat, exec, store_flat, h address rfl]
  | push imm => simp only [execFlat, exec, push, store_flat, h _ rfl]
  | pushEbx => simp only [execFlat, exec, push, store_flat, h _ rfl]
  | call address => simp only [execFlat, exec, push, store_flat, h _ rfl]
  | _ => rfl

/-- The entry of a 4 MiB page at the start of memory. -/
theorem through_kernel {c : BootCore} (hlarge : c.largePages = true) (va : Word) :
    c.through 0x83#32 va = some (BitVec.ofNat 32 (va.toNat % 2 ^ 22)) := by
  have hp : present 0x83#32 = true := by decide
  have hl : large 0x83#32 = true := by decide
  have hbase : (0x83#32 : Word).toNat / 2 ^ 22 * 2 ^ 22 = 0 := by decide
  simp only [through, hp, hl, hlarge, hbase, Bool.not_true, Bool.false_eq_true, if_false,
    Bool.and_self, if_true, Nat.zero_add]

/-- Where large pages are on, the walk is that of the paging unit. -/
theorem through_pde {c : BootCore} (hlarge : c.largePages = true) (va : Word) :
    c.through (c.pde (pdIndex va)) va = translate c.ram (frameOf c.cr3) va := by
  simp only [through, hlarge, Bool.true_and]
  rfl

end BootCore

namespace BootImage

variable (b : BootImage)

/-- One instruction of the image on flat memory. -/
def next (c : BootCore) (i : BootInstr) : BootCore :=
  { c with eip := c.eip + BitVec.ofNat 32 (b.size i) }.execFlat i

/-- The processor before instruction `k`, on flat memory. -/
def flatCore (c : BootCore) (k : ℕ) : BootCore := (b.code.take k).foldl b.next c

/-- The word that an instruction pushes. -/
def pushedWord (c : BootCore) : BootInstr → Option Word
  | .push imm => some imm
  | .pushEbx => some c.ebx
  | .call address => some (c.eip + BitVec.ofNat 32 (b.size (.call address)))
  | _ => none

variable {b} {c : BootCore} {i : BootInstr} {k : ℕ}

/-- An instruction that accesses no memory leaves it as it is. -/
theorem next_ram_quiet (h : c.accessed i = none) : (b.next c i).ram = c.ram := by
  cases i <;> first | rfl | cases h

/-- The instruction that stores a constant does so at the lowered address. -/
theorem next_ram_store (address imm : Word) :
    (b.next c (.movDword address imm)).ram = store32 c.ram (lower address) imm := rfl

/-- A push or a call stores its word at the lowered address below the stack pointer. -/
theorem next_ram_push {w : Word} (h : b.pushedWord c i = some w) :
    (b.next c i).ram = store32 c.ram (lower (c.esp - 4#32)) w := by
  cases i <;> first | (obtain rfl := Option.some.inj h; rfl) | cases h

/-- Only `cli` changes whether interrupts are on. -/
theorem next_interrupts : (b.next c i).interrupts =
    match i with
    | .cli => false
    | _ => c.interrupts := by
  cases i <;> rfl

/-- Only the addition changes the register with the boot information. -/
theorem next_ebx : (b.next c i).ebx =
    match i with
    | .addEbx imm => c.ebx + imm
    | _ => c.ebx := by
  cases i <;> rfl

/-- One instruction more is the next one of the code. -/
theorem flatCore_succ (hk : k < b.code.length) :
    b.flatCore c (k + 1) = b.next (b.flatCore c k) b.code[k] := by
  simp only [flatCore, List.take_succ_eq_append_getElem hk, List.foldl_append, List.foldl_cons,
    List.foldl_nil]

/-- An instruction begins where the one before it ends. -/
theorem address_succ (hk : k < b.code.length) :
    b.address (k + 1) = b.address k + BitVec.ofNat 32 (b.size b.code[k]) := by
  simp only [address, List.take_succ_eq_append_getElem hk, List.map_append, List.sum_append,
    List.map_cons, List.map_nil, List.sum_singleton, BitVec.ofNat_add, BitVec.add_assoc]

/-- The bootstrapper has twenty instructions, whatever the addresses are that the linker gave it. -/
theorem code_length : b.code.length = 20 := rfl

/-! ## What the linker and the loader provide -/

/-- The kernel lies in the first 4 MiB above its offset, and what the boot code pushes below
`kstack` does not meet the page directory. -/
structure Linked (b : BootImage) : Prop where
  boot : b.boot = b.address 10
  fetched : ∀ k (hk : k < b.code.length),
    b.fetched (b.address k - kernelVirtualOffset) = some b.code[k]
  code_low : 0xC0000000 ≤ b.bootstrapper.toNat
  code_high : b.bootstrapper.toNat + (b.code.map b.size).sum < 0xC0400000
  directory_aligned : b.pdVirtualAddress.toNat % 4096 = 0
  directory_low : 0xC0000000 ≤ b.pdVirtualAddress.toNat
  directory_high : b.pdVirtualAddress.toNat < 0xC0400000
  stack_low : 0xC0000010 ≤ b.kstack.toNat
  stack_high : b.kstack.toNat ≤ 0xC0400000
  stack_apart : b.kstack.toNat ≤ b.pdVirtualAddress.toNat ∨
    b.pdVirtualAddress.toNat + 4096 + 16 ≤ b.kstack.toNat
  directory_in_kernel : b.pdPhysicalAddress.toNat ≤ b.kernelPhysEnd.toNat

/-- The state in which the boot loader enters the kernel: the directory of the image is in
memory, with the same 4 MiB page in entries 0 and 768. -/
structure Entered (b : BootImage) (c : BootCore) : Prop where
  eip : c.eip = b.address 0 - kernelVirtualOffset
  paging : c.paging = false
  directory : ∀ i, entry c.ram (frameOf b.pdPhysicalAddress) i =
    if i = 0 ∨ i = 768 then 0x83#32 else 0#32

section Linked

variable (h : b.Linked)
include h

/-- The code is linked to the upper half, below 4 MiB from its start. -/
theorem Linked.toNat_address (k : ℕ) :
    0xC0000000 ≤ (b.address k).toNat ∧ (b.address k).toNat < 0xC0400000 := by
  have hlow := h.code_low
  have hhigh := h.code_high
  have hsum : ((b.code.take k).map b.size).sum ≤ (b.code.map b.size).sum := by
    conv_rhs => rw [← List.take_append_drop k b.code, List.map_append, List.sum_append]
    exact Nat.le_add_right _ _
  have haddr : (b.address k).toNat =
      b.bootstrapper.toNat + ((b.code.take k).map b.size).sum := by
    rw [address, BitVec.toNat_add, BitVec.toNat_ofNat]
    omega
  omega

/-- The page directory is at its virtual address less the offset of the kernel. -/
theorem Linked.toNat_pdPhysicalAddress :
    b.pdPhysicalAddress.toNat = b.pdVirtualAddress.toNat - 0xC0000000 := by
  have hlow := h.directory_low
  rw [pdPhysicalAddress, kernelVirtualOffset]
  bv_omega

/-- The lowered address of the page directory is that of its first entry. -/
theorem Linked.lower_pdVirtualAddress : lower b.pdVirtualAddress =
    entryAddr (frameOf b.pdPhysicalAddress) 0 := by
  have hphys := h.toNat_pdPhysicalAddress
  have halign := h.directory_aligned
  have hhigh := h.directory_high
  rw [lower_of_high h.directory_low]
  apply BitVec.eq_of_toNat_eq
  change b.pdPhysicalAddress.toNat = _
  rw [toNat_entryAddr, toNat_frameOf]
  change _ = _ + 4 * 0
  omega

/-- A word below `kstack` lies outside the directory. -/
theorem Linked.pushed_apart {i : ℕ} (hi : i < 4) {x : Word}
    (hx : (x - lower (b.kstack - BitVec.ofNat 32 (4 * (i + 1)))).toNat < 4) :
    frameOf x ≠ frameOf b.pdPhysicalAddress := by
  have hphys := h.toNat_pdPhysicalAddress
  have hlow := h.stack_low
  have hhigh := h.stack_high
  have halign := h.directory_aligned
  have hpd := h.directory_low
  have hpd' := h.directory_high
  have hslot : (b.kstack - BitVec.ofNat 32 (4 * (i + 1))).toNat = b.kstack.toNat - 4 * (i + 1) := by
    bv_omega
  rw [lower_of_high (by omega), kernelVirtualOffset] at hx
  intro heq
  have hframe := congrArg BitVec.toNat heq
  rw [toNat_frameOf, toNat_frameOf, hphys] at hframe
  have hxnat : x.toNat < b.kstack.toNat - 4 * (i + 1) - 0xC0000000 + 4 ∧
      b.kstack.toNat - 4 * (i + 1) - 0xC0000000 ≤ x.toNat := by bv_omega
  rcases h.stack_apart with hbelow | habove
  · omega
  · omega

end Linked

/-! ## The run on flat memory -/

/-- The first instructions run at low addresses, and those after the jump in the upper half. -/
theorem flatCore_eip (h : b.Linked) (hc : b.Entered c) (hk : k < 20) : (b.flatCore c k).eip =
    if k ≤ 9 then b.address k - kernelVirtualOffset else b.address k := by
  induction k with
  | zero => exact hc.eip
  | succ k ih =>
    have hlt : k < b.code.length := by rw [code_length]; omega
    rw [flatCore_succ hlt]
    by_cases hjump : k = 9
    · -- the jump into the upper copy
      subst hjump
      exact h.boot
    · have hnext (c : BootCore) : (b.next c b.code[k]).eip =
          c.eip + BitVec.ofNat 32 (b.size b.code[k]) := by
        have hk' : k < 19 := by omega
        clear ih hk
        interval_cases k <;> first | rfl | exact absurd rfl hjump
      rw [hnext, ih (by omega), address_succ hlt]
      by_cases hlow : k ≤ 9
      · rw [if_pos hlow, if_pos (by omega), BitVec.sub_add_comm]
      · rw [if_neg hlow, if_neg (by omega)]

/-- Paging is on from the ninth instruction on. -/
theorem flatCore_paging (hc : b.Entered c) (hk : k ≤ 20) :
    (b.flatCore c k).paging = decide (8 ≤ k) := by
  have hoff : c.cr0.getLsbD 31 = false := hc.paging
  have hcr0 : (b.flatCore c k).cr0 = if 8 ≤ k then c.cr0 ||| 0x80000000 else c.cr0 := by
    interval_cases k <;> rfl
  rw [BootCore.paging, hcr0]
  split_ifs with hlow
  · simp [hlow]
  · exact hoff.trans (decide_eq_false hlow).symm

/-- Large pages are on from the fourth instruction on. -/
theorem flatCore_largePages (hlow : 3 ≤ k) (hk : k ≤ 20) :
    (b.flatCore c k).largePages = true := by
  have hcr4 : (b.flatCore c k).cr4 = c.cr4 ||| 0x10 := by
    interval_cases k <;> rfl
  rw [BootCore.largePages, hcr4]
  simp

/-- The directory register has the page directory from the sixth instruction on. -/
theorem flatCore_cr3 (hlow : 5 ≤ k) (hk : k ≤ 20) :
    (b.flatCore c k).cr3 = b.pdPhysicalAddress := by
  interval_cases k <;> rfl

/-- A word pushed leaves the directory alone. -/
theorem entry_push (h : b.Linked) {i : ℕ} (hi : i < 4) (ram : Mem) (w : Word) (j : EntryIndex) :
    entry (store32 ram (lower (b.kstack - BitVec.ofNat 32 (4 * (i + 1)))) w)
      (frameOf b.pdPhysicalAddress) j = entry ram (frameOf b.pdPhysicalAddress) j := by
  refine entry_congr j fun x hx => store32_frame ram w ?_
  by_contra hnear
  exact h.pushed_apart hi (by omega) hx

/-- The words that the boot code pushes, the first one first. -/
def pushed (b : BootImage) (c : BootCore) : List Word :=
  [b.kernelPhysEnd, b.kernelPhysStart, c.ebx + kernelVirtualOffset, b.address 20]

/-- Each push moves the stack pointer down by four from the top of the stack. -/
theorem flatCore_esp {i : ℕ} (hi : i ≤ 4) :
    (b.flatCore c (16 + i)).esp = b.kstack - BitVec.ofNat 32 (4 * i) := by
  have hstart : (b.flatCore c 16).esp = b.kstack := rfl
  induction i with
  | zero => exact hstart.trans (by bv_omega)
  | succ i ih =>
    have hnext : (b.flatCore c (16 + (i + 1))).esp = (b.flatCore c (16 + i)).esp - 4#32 := by
      have hi' : i < 4 := hi
      clear ih hi
      interval_cases i <;> rfl
    rw [hnext, ih (by omega)]
    bv_omega

/-- The address of the boot information is moved to the upper half. -/
theorem flatCore_ebx : (b.flatCore c 18).ebx = c.ebx + kernelVirtualOffset := by
  simp only [flatCore, code, List.take_succ_cons, List.take_zero, List.foldl_cons, List.foldl_nil,
    next_ebx]

/-- The call pushes the address behind it. -/
theorem flatCore_return (h : b.Linked) (hc : b.Entered c) : b.address 20 =
    (b.flatCore c 19).eip + BitVec.ofNat 32 (b.size (.call b.kernelMain)) := by
  rw [flatCore_eip h hc (by omega), if_neg (by omega)]
  exact address_succ (by rw [code_length]; omega)

/-- Each of the last instructions pushes its word. -/
theorem flatCore_pushed (h : b.Linked) (hc : b.Entered c) {i : ℕ} (hi : i < 4) :
    (b.flatCore c (16 + i + 1)).ram = store32 (b.flatCore c (16 + i)).ram
      (lower (b.kstack - BitVec.ofNat 32 (4 * (i + 1)))) (getElem (b.pushed c) i hi) := by
  have hlt : 16 + i < b.code.length := by rw [code_length]; omega
  have hword : b.pushedWord (b.flatCore c (16 + i)) b.code[16 + i] =
      some (getElem (b.pushed c) i hi) := by
    match i, hi with
    | 0, _ => rfl
    | 1, _ => rfl
    | 2, _ => exact congrArg some flatCore_ebx
    | 3, _ => exact congrArg some (flatCore_return h hc).symm
  have hesp : (b.flatCore c (16 + i)).esp - 4#32 = b.kstack - BitVec.ofNat 32 (4 * (i + 1)) := by
    rw [flatCore_esp (Nat.le_of_lt hi)]
    bv_omega
  rw [flatCore_succ hlt, next_ram_push hword]
  exact congrArg (fun a => store32 _ (lower a) _) hesp

/-- Memory is not written before the thirteenth instruction. -/
theorem flatCore_ram_start (hk : k ≤ 12) : (b.flatCore c k).ram = c.ram := by
  induction k with
  | zero => rfl
  | succ k ih =>
    have hlt : k < b.code.length := by rw [code_length]; omega
    have hquiet (c : BootCore) : c.accessed b.code[k] = none := by
      have hk' : k < 12 := hk
      clear ih hk
      interval_cases k <;> rfl
    rw [flatCore_succ hlt, next_ram_quiet (hquiet _), ih (by omega)]

/-- After it the first entry of the directory is cleared. -/
theorem flatCore_ram_cleared {n : ℕ} (hn : n ≤ 3) :
    (b.flatCore c (13 + n)).ram = store32 c.ram (lower b.pdVirtualAddress) 0 := by
  induction n with
  | zero =>
    have hlt : 12 < b.code.length := by rw [code_length]; omega
    rw [Nat.add_zero, flatCore_succ hlt, ← flatCore_ram_start (b := b) (c := c) (le_refl 12)]
    exact next_ram_store _ _
  | succ n ih =>
    have hlt : 13 + n < b.code.length := by rw [code_length]; omega
    have hquiet (c : BootCore) : c.accessed b.code[13 + n] = none := by
      have hn' : n < 3 := hn
      clear ih hn
      interval_cases n <;> rfl
    rw [← Nat.add_assoc, flatCore_succ hlt, next_ram_quiet (hquiet _), ih (by omega)]

/-- The directory: entry 0 lasts until the code clears it. -/
theorem flatCore_entry (h : b.Linked) (hc : b.Entered c) (hk : k ≤ 20) (i : EntryIndex) :
    entry (b.flatCore c k).ram (frameOf b.pdPhysicalAddress) i =
      if i = 768 ∨ i = 0 ∧ k ≤ 12 then 0x83#32 else 0#32 := by
  rcases Nat.lt_or_ge k 13 with hbefore | hafter
  · rw [flatCore_ram_start (by omega), hc.directory]
    simp only [or_comm, Nat.lt_succ_iff.mp hbefore, and_true]
  · have hpast : ¬ k ≤ 12 := by omega
    have hcleared : entry (store32 c.ram (lower b.pdVirtualAddress) 0)
        (frameOf b.pdPhysicalAddress) i = if i = 768 then 0x83#32 else 0#32 := by
      rw [h.lower_pdVirtualAddress, entry_store32, hc.directory]
      by_cases hi : i = 0
      · subst hi
        rw [if_pos ⟨rfl, rfl⟩]
        decide
      · simp only [hi, and_false, if_false, false_or]
    simp only [hpast, and_false, or_false, ← hcleared]
    rcases Nat.lt_or_ge k 17 with hquiet | hpush
    · obtain ⟨n, rfl⟩ : ∃ n, k = 13 + n := ⟨k - 13, by omega⟩
      rw [flatCore_ram_cleared (by omega)]
    · obtain ⟨n, rfl⟩ : ∃ n, k = 16 + n := ⟨k - 16, by omega⟩
      have hn : n ≤ 4 := by omega
      clear hpush hafter hpast hk
      induction n with
      | zero => rw [Nat.add_zero, flatCore_ram_cleared (show 3 ≤ 3 by omega)]
      | succ n ih =>
        rw [← Nat.add_assoc, flatCore_pushed h hc hn, entry_push h hn]
        exact ih (by omega)

/-! ## The run through the paging unit -/

/-- The processor before instruction `k`: as on flat memory, and with no entries in its buffer
but those of the two copies. -/
structure Ready (b : BootImage) (c : BootCore) (k : ℕ) (s : BootCpu) : Prop where
  core : s.core = b.flatCore c k
  tlb : 5 ≤ k → ∀ i e, s.tlb i = some e → e = 0x83#32 ∧ (i = 768 ∨ i = 0 ∧ k ≤ 13)

variable {s : BootCpu} {o : CacheChoice}

/-- The directory maps the kernel in the upper half, and below until its first entry is cleared. -/
theorem flatCore_pde (h : b.Linked) (hc : b.Entered c) (hlow : 5 ≤ k) (hk : k ≤ 20)
    (i : EntryIndex) : (b.flatCore c k).pde i =
      if i = 768 ∨ i = 0 ∧ k ≤ 12 then 0x83#32 else 0#32 := by
  rw [BootCore.pde, flatCore_cr3 hlow hk]
  exact flatCore_entry h hc hk i

/-- An entry in the buffer was there before, or it is the one in memory. -/
theorem cached_entry {i : EntryIndex} {e : Word} (he : (s.cache o).tlb i = some e) :
    s.tlb i = some e ∨ present (s.core.pde i) ∧ s.core.pde i = e := by
  simp only [BootCpu.cache] at he
  have hdrop (e : Word) (hkept : (if o.drop i then none else s.tlb i) = some e) :
      s.tlb i = some e := by
    split_ifs at hkept
    exact hkept
  cases hkept : (if o.drop i then none else s.tlb i) with
  | some e' =>
    rw [hkept, Option.getD_some, ite_self] at he
    exact Or.inl (hdrop e (hkept.trans he))
  | none =>
    rw [hkept] at he
    split_ifs at he with hfill
    rw [Bool.and_eq_true] at hfill
    exact Or.inr ⟨hfill.2, Option.some.inj he⟩

/-- What the processor reads into its buffer are the entries of the two copies. -/
theorem Ready.cache (h : b.Linked) (hc : b.Entered c) (hk : k ≤ 20) (hs : b.Ready c k s)
    (o : CacheChoice) : b.Ready c k (s.cache o) where
  core := hs.core
  tlb hlow i e he := by
    rcases cached_entry he with hold | ⟨hpresent, hentry⟩
    · exact hs.tlb hlow i e hold
    · rw [hs.core, flatCore_pde h hc hlow hk] at hpresent hentry
      split_ifs at hpresent hentry with hcopy
      · exact ⟨hentry.symm, hcopy.imp_right fun hzero => ⟨hzero.1, by omega⟩⟩
      · exact absurd hpresent (by decide)

/-- Where the processor finds the addresses that it uses. -/
theorem Ready.translate (h : b.Linked) (hc : b.Entered c) (hk : k ≤ 20) (hs : b.Ready c k s)
    {va : Word} (hva : va.toNat < 0x400000 ∧ k ≤ 12 ∨
      0xC0000000 ≤ va.toNat ∧ va.toNat < 0xC0400000 ∧ 8 ≤ k) :
    s.translate va = some (lower va) := by
  rw [BootCpu.translate, hs.core, flatCore_paging hc hk]
  by_cases hpaging : 8 ≤ k
  · have hindex : pdIndex va = 768 ∨ pdIndex va = 0 ∧ k ≤ 12 := by
      rcases hva with ⟨hlow, hk'⟩ | ⟨hlow, hhigh, -⟩
      · refine Or.inr ⟨BitVec.eq_of_toNat_eq ?_, hk'⟩
        rw [toNat_pdIndex]
        change _ = 0
        omega
      · refine Or.inl (BitVec.eq_of_toNat_eq ?_)
        rw [toNat_pdIndex]
        change _ = 768
        omega
    have hentry : (s.tlb (pdIndex va)).getD ((b.flatCore c k).pde (pdIndex va)) = 0x83#32 := by
      cases hcached : s.tlb (pdIndex va) with
      | none => exact (flatCore_pde h hc (by omega) hk _).trans (if_pos hindex)
      | some e => exact (hs.tlb (by omega) _ e hcached).1
    rw [decide_eq_true hpaging, if_pos rfl, hentry,
      BootCore.through_kernel (flatCore_largePages (by omega) hk)]
    congr 1
    apply BitVec.eq_of_toNat_eq
    rcases hva with ⟨hlow, -⟩ | ⟨hlow, hhigh, -⟩
    · rw [lower_of_low hlow, toNat_ofNat_of_lt (by omega)]
      omega
    · rw [lower_of_high hlow, kernelVirtualOffset, toNat_ofNat_of_lt (by omega)]
      bv_omega
  · rcases hva with ⟨hlow, -⟩ | ⟨-, -, hk'⟩
    · rw [decide_eq_false hpaging, if_neg (by decide), lower_of_low hlow]
    · exact absurd hk' hpaging

/-- The instruction with number 12 accesses the directory and the last four push a word; no other
one accesses memory. -/
theorem accessed_code (c : BootCore) (hk : k < 20) : c.accessed (getElem b.code k hk) =
    if k = 12 then some b.pdVirtualAddress
    else if 16 ≤ k then some (c.esp - 4#32)
    else none := by
  interval_cases k <;> rfl

/-- The instructions that store do so in the upper copy. -/
theorem accessed_high (h : b.Linked) (hk : k < 20) {a : Word}
    (ha : (b.flatCore c k).accessed (getElem b.code k hk) = some a) :
    12 ≤ k ∧ 0xC0000000 ≤ a.toNat ∧ a.toNat < 0xC0400000 := by
  rw [accessed_code _ hk] at ha
  split_ifs at ha with hclear hpush
  · obtain rfl := Option.some.inj ha
    exact ⟨by omega, h.directory_low, h.directory_high⟩
  · obtain ⟨i, rfl⟩ : ∃ i, k = 16 + i := ⟨k - 16, by omega⟩
    have hstack := h.stack_low
    have hstack' := h.stack_high
    rw [flatCore_esp (show i ≤ 4 by omega)] at ha
    obtain rfl := Option.some.inj ha
    refine ⟨by omega, ?_⟩
    clear hclear hpush ha
    bv_omega

/-- Changing the paging registers empties the buffer, and `invlpg` drops the lower copy. -/
theorem flush_code (tlb : EntryIndex → Option Word) (hk : k < 20) :
    BootCpu.flush tlb (getElem b.code k hk) =
      if k = 2 ∨ k = 4 ∨ k = 7 then fun _ => none
      else if k = 13 then fun i => if i = 0 then none else tlb i
      else tlb := by
  interval_cases k <;> rfl

/-- The step lemma: the processor fetches its next instruction and executes it. -/
theorem Ready.step (h : b.Linked) (hc : b.Entered c) (hk : k < 20) (hs : b.Ready c k s)
    (o : CacheChoice) : ∃ s', s.step b o = .ok s' ∧ b.Ready c (k + 1) s' := by
  have hs' := hs.cache h hc hk.le o
  obtain ⟨hlow, hhigh⟩ := h.toNat_address k
  have hfetch : (s.cache o).translate (s.cache o).core.eip =
      some (b.address k - kernelVirtualOffset) := by
    have hphys : (b.address k - kernelVirtualOffset).toNat < 0x400000 := by
      rw [kernelVirtualOffset]
      bv_omega
    rw [hs'.core, flatCore_eip h hc hk]
    split_ifs with hcopy
    · rw [hs'.translate h hc hk.le (Or.inl ⟨hphys, by omega⟩), lower_of_low hphys]
    · rw [hs'.translate h hc hk.le (Or.inr ⟨hlow, hhigh, by omega⟩), lower_of_high hlow]
  have hexec : { (s.cache o).core with
      eip := (s.cache o).core.eip + BitVec.ofNat 32 (b.size (getElem b.code k hk)) }.exec
        (s.cache o).translate (getElem b.code k hk) =
      .ok (b.next (s.cache o).core (getElem b.code k hk)) := by
    apply BootCore.exec_eq_flat
    intro a ha
    rw [hs'.core] at ha
    obtain ⟨hlate, ha⟩ := accessed_high h hk ha
    exact hs'.translate h hc hk.le (Or.inr ⟨ha.1, ha.2, by omega⟩)
  refine ⟨{ core := b.next (s.cache o).core (getElem b.code k hk)
            tlb := BootCpu.flush (s.cache o).tlb (getElem b.code k hk) }, ?_, ?_,
    fun hlate i e he => ?_⟩
  · simp only [BootCpu.step, hfetch, h.fetched k hk, hexec, ok_bind]
  · rw [flatCore_succ hk, ← hs'.core]
  · rw [flush_code _ hk] at he
    split_ifs at he with hreset hdrop
    · change (if i = 0 then none else (s.cache o).tlb i) = some e at he
      split_ifs at he with hi
      obtain ⟨rfl, hcopy⟩ := hs'.tlb (by omega) i e he
      exact ⟨rfl, hcopy.imp_right fun hzero => absurd hzero.1 hi⟩
    · obtain ⟨rfl, hcopy⟩ := hs'.tlb (by omega) i e he
      exact ⟨rfl, hcopy.imp_right fun hzero => ⟨hzero.1, by omega⟩⟩

/-- The run lemma: from an entered state, the first instructions are carried out one after the
other. -/
theorem Ready.run (h : b.Linked) (hc : b.Entered c) (hs : b.Ready c k s) {os : List CacheChoice}
    (hk : k + os.length ≤ 20) :
    ∃ s', runEvents (BootCpu.step b) s os = .ok s' ∧ b.Ready c (k + os.length) s' := by
  induction os generalizing k s with
  | nil => exact ⟨s, rfl, hs⟩
  | cons o os ih =>
    rw [List.length_cons] at hk
    obtain ⟨t, hstep, ht⟩ := hs.step h hc (by omega) o
    obtain ⟨s', hrun, hs'⟩ := ih ht (by omega)
    rw [List.length_cons, Nat.add_comm os.length, ← Nat.add_assoc]
    exact ⟨s', by rw [runEvents_cons, hstep, ok_bind, hrun], hs'⟩

/-! ## At the call of `kernel_main` -/

/-- The place of the word that is pushed after `i` others. -/
theorem Linked.toNat_slot (h : b.Linked) {i : ℕ} (hi : i < 4) :
    (lower (b.kstack - BitVec.ofNat 32 (4 * (i + 1)))).toNat =
      b.kstack.toNat - 0xC0000000 - 4 * (i + 1) := by
  have hlow := h.stack_low
  have hslot : (b.kstack - BitVec.ofNat 32 (4 * (i + 1))).toNat = b.kstack.toNat - 4 * (i + 1) := by
    bv_omega
  rw [lower_of_high (by omega), BitVec.toNat_sub, hslot]
  change (2 ^ 32 - 0xC0000000 + _) % 2 ^ 32 = _
  have := b.kstack.isLt
  omega

/-- The words pushed stay on the stack. -/
theorem flatCore_stack (h : b.Linked) (hc : b.Entered c) {n : ℕ} (hn : n ≤ 4) {i : ℕ} (hi : i < n) :
    load32 (b.flatCore c (16 + n)).ram (lower (b.kstack - BitVec.ofNat 32 (4 * (i + 1)))) =
      getElem (b.pushed c) i (Nat.lt_of_lt_of_le hi hn) := by
  induction n with
  | zero => omega
  | succ n ih =>
    rw [← Nat.add_assoc, flatCore_pushed h hc hn]
    by_cases hlast : i = n
    · subst hlast
      exact load32_store32_same ..
    · have hi' : i < n := by omega
      have hslot := h.toNat_slot (show i < 4 by omega)
      have hslot' := h.toNat_slot (show n < 4 by omega)
      have hlow := h.stack_low
      rw [load32_store32_disjoint]
      · exact ih (by omega) hi'
      · generalize lower (b.kstack - BitVec.ofNat 32 (4 * (i + 1))) = x at hslot
        generalize lower (b.kstack - BitVec.ofNat 32 (4 * (n + 1))) = y at hslot'
        bv_omega
      · generalize lower (b.kstack - BitVec.ofNat 32 (4 * (i + 1))) = x at hslot
        generalize lower (b.kstack - BitVec.ofNat 32 (4 * (n + 1))) = y at hslot'
        bv_omega

/-- The rest of memory is as the loader left it. -/
theorem flatCore_kept (h : b.Linked) (hc : b.Entered c) {n : ℕ} (hn : n ≤ 4) {x : Word}
    (hpd : frameOf x ≠ frameOf b.pdPhysicalAddress)
    (hstack : ∀ i < 4, 4 ≤ (x - lower (b.kstack - BitVec.ofNat 32 (4 * (i + 1)))).toNat) :
    (b.flatCore c (16 + n)).ram x = c.ram x := by
  induction n with
  | zero =>
    rw [Nat.add_zero, flatCore_ram_cleared (show 3 ≤ 3 by omega), h.lower_pdVirtualAddress]
    exact store32_entry_frame _ _ _ hpd
  | succ n ih =>
    rw [← Nat.add_assoc, flatCore_pushed h hc hn, store32_frame _ _ (hstack n hn)]
    exact ih (by omega)

/-- The state in which the boot code enters `kernel_main`. -/
structure UpperHalf (b : BootImage) (c : BootCore) (s : BootCpu) : Prop where
  eip : s.core.eip = b.kernelMain
  interrupts : s.core.interrupts = false
  /-- Nothing is left in the translation buffer that is not in the directory. -/
  coherent : ∀ va, s.translate va = Muk.translate s.core.ram (frameOf s.core.cr3) va
  /-- The upper copy is mapped and nothing else is. -/
  mapped : ∀ va, s.translate va =
    if pdIndex va = 768 then some (va - kernelVirtualOffset) else none
  /-- The return address and the arguments of `kernel_main`. They lie below `kstack`, the first
  byte of the memory that is reserved for the stack. -/
  esp : s.core.esp = b.kstack - 16#32
  returnAddress : load32 s.core.ram (lower (s.core.esp + 0#32)) = b.address 20
  mbInfo : load32 s.core.ram (lower (s.core.esp + 4#32)) = c.ebx + kernelVirtualOffset
  kPhysStart : load32 s.core.ram (lower (s.core.esp + 8#32)) = b.kernelPhysStart
  kPhysEnd : load32 s.core.ram (lower (s.core.esp + 12#32)) = b.kernelPhysEnd
  kept : ∀ x, frameOf x ≠ frameOf b.pdPhysicalAddress →
    (∀ i < 4, 4 ≤ (x - lower (b.kstack - BitVec.ofNat 32 (4 * (i + 1)))).toNat) →
    s.core.ram x = c.ram x
  /-- `Memory::Setup` finds what it relies on. -/
  booted : ∀ m : Machine, m.ram = s.core.ram → m.cr3 = frameOf s.core.cr3 →
    (∀ chunk (h : chunk < 4096), m.physManager.bitmap[chunk] = 0) →
    m.Booted b.kernelPhysEnd b.pdVirtualAddress b.pdPhysicalAddress

/-- After the last instruction every address goes through the upper copy or nowhere. -/
theorem Ready.mapped (h : b.Linked) (hc : b.Entered c) (hs : b.Ready c 20 s) (va : Word) :
    s.translate va = s.core.through (s.core.pde (pdIndex va)) va ∧
      s.translate va = if pdIndex va = 768 then some (va - kernelVirtualOffset) else none := by
  have hpde := flatCore_pde h hc (show 5 ≤ 20 by omega) le_rfl (pdIndex va)
  simp only [show ¬ 20 ≤ 12 by omega, and_false, or_false] at hpde
  have hentry : (s.tlb (pdIndex va)).getD (s.core.pde (pdIndex va)) = s.core.pde (pdIndex va) := by
    cases hcached : s.tlb (pdIndex va) with
    | none => rfl
    | some e =>
      obtain ⟨rfl, hindex⟩ := hs.tlb (by omega) _ e hcached
      have h768 : pdIndex va = 768 := hindex.resolve_right fun hzero => absurd hzero.2 (by omega)
      rw [hs.core, hpde, if_pos h768]
      rfl
  have hwalk : s.translate va = s.core.through (s.core.pde (pdIndex va)) va := by
    rw [BootCpu.translate, hentry, hs.core, flatCore_paging hc le_rfl]
    rfl
  refine ⟨hwalk, ?_⟩
  split_ifs with hindex
  · have hnat := congrArg BitVec.toNat hindex
    rw [toNat_pdIndex] at hnat
    change _ = 768 at hnat
    have hhigh : 0xC0000000 ≤ va.toNat := by omega
    rw [hs.translate h hc le_rfl (Or.inr ⟨hhigh, by omega, by omega⟩), lower_of_high hhigh]
  · rw [hwalk, hs.core, hpde, if_neg hindex]
    rfl

/-- The last instruction jumps to the kernel. -/
theorem flatCore_kernelMain : (b.flatCore c 20).eip = b.kernelMain := by
  rw [flatCore_succ (show 19 < b.code.length by rw [code_length]; omega)]
  exact rfl

/-- Interrupts are off when the kernel is entered. -/
theorem flatCore_interrupts : (b.flatCore c 20).interrupts = false := by
  simp only [flatCore, code, List.take_succ_cons, List.take_zero, List.foldl_cons, List.foldl_nil,
    next_interrupts]

/-- A word of the stack as `kernel_main` addresses it. -/
theorem flatCore_argument (h : b.Linked) (hc : b.Entered c) {i : ℕ} (hi : i < 4) :
    load32 (b.flatCore c 20).ram (lower (b.kstack - 16#32 + BitVec.ofNat 32 (12 - 4 * i))) =
      getElem (b.pushed c) i hi := by
  have hslot : b.kstack - 16#32 + BitVec.ofNat 32 (12 - 4 * i) =
      b.kstack - BitVec.ofNat 32 (4 * (i + 1)) := by bv_omega
  rw [hslot]
  exact flatCore_stack h hc (le_refl 4) hi

/-- The state after the last instruction is one of the upper half. -/
theorem Ready.upperHalf (h : b.Linked) (hc : b.Entered c) (hs : b.Ready c 20 s) :
    b.UpperHalf c s := by
  have hesp : s.core.esp = b.kstack - 16#32 := by
    rw [hs.core, flatCore_esp (le_refl 4)]
  have hpde := flatCore_pde h hc (show 5 ≤ 20 by omega) le_rfl
  simp only [show ¬ 20 ≤ 12 by omega, and_false, or_false] at hpde
  have hphys := h.toNat_pdPhysicalAddress
  have halign := h.directory_aligned
  have hhigh := h.directory_high
  refine ⟨?_, ?_, fun va => ?_, fun va => (hs.mapped h hc va).2, hesp, ?_, ?_, ?_, ?_,
    fun x hpd hstack => ?_, fun m hram hcr3 hbitmap => ?_⟩
  · rw [hs.core, flatCore_kernelMain]
  · rw [hs.core, flatCore_interrupts]
  · rw [(hs.mapped h hc va).1, BootCore.through_pde]
    rw [hs.core]
    exact flatCore_largePages (by omega) le_rfl
  · rw [hesp, hs.core]
    exact flatCore_argument h hc (show 3 < 4 by omega)
  · rw [hesp, hs.core]
    exact flatCore_argument h hc (show 2 < 4 by omega)
  · rw [hesp, hs.core]
    exact flatCore_argument h hc (show 1 < 4 by omega)
  · rw [hesp, hs.core]
    exact flatCore_argument h hc (show 0 < 4 by omega)
  · rw [hs.core]
    exact flatCore_kept h hc (le_refl 4) hpd hstack
  · have hcr3' : m.cr3 = frameOf b.pdPhysicalAddress := by
      rw [hcr3, hs.core, flatCore_cr3 (by omega) le_rfl]
    have hentry (i : EntryIndex) : m.pde i = (b.flatCore c 20).pde i := by
      rw [Machine.pde, hram, hcr3, hs.core]
      rfl
    have hframe : m.cr3.toNat = b.pdPhysicalAddress.toNat / 4096 := by
      rw [hcr3', toNat_frameOf]
    refine ⟨?_, fun i hi => ?_, ?_, ?_, ?_, ?_, hbitmap⟩
    · rw [hentry, hpde, if_pos rfl]
    · rw [hentry, hpde, if_neg hi]
      rfl
    · apply BitVec.eq_of_toNat_eq
      rw [toNat_physAddr _ (by omega), hframe]
      omega
    · exact (BitVec.sub_add_cancel b.pdVirtualAddress kernelVirtualOffset).symm
    · have := h.directory_in_kernel
      rw [hframe]
      omega
    · rw [hframe]
      omega

/-- **Into the upper half.** Entered as the boot loader does, with any contents of the translation
buffer and whatever the processor keeps in it from one instruction to the next, the boot code
fetches each of its instructions where the loader put it, and enters `kernel_main` in the upper
half: the lower copy is gone, also from the buffer, and `Memory::Setup` finds what it relies on. -/
theorem bootstrapper_enters_upper_half (h : b.Linked) (hc : b.Entered s.core)
    {os : List CacheChoice} (hos : os.length = 20) :
    ∃ s', runEvents (BootCpu.step b) s os = .ok s' ∧ b.UpperHalf s.core s' := by
  have hstart : b.Ready s.core 0 s := ⟨rfl, fun hlate => absurd hlate (by omega)⟩
  obtain ⟨s', hrun, hs'⟩ := hstart.run h hc (show 0 + os.length ≤ 20 by omega)
  rw [hos, Nat.zero_add] at hs'
  exact ⟨s', hrun, hs'.upperHalf h hc⟩

/-- The lengths that the assembler gives to the instructions. -/
def encodedSize : BootInstr → ℕ
  | .movEaxCr4 | .movCr4Eax | .movCr3Eax | .movEaxCr0 | .movCr0Eax | .finit => 3
  | .orEax imm => if imm.toNat < 128 then 3 else 5
  | .movEax _ | .movEsp _ | .push _ | .call _ => 5
  | .leaEcx _ | .addEbx _ => 6
  | .jmpEcx => 2
  | .cli | .pushEbx => 1
  | .movDword .. => 10
  | .invlpg _ => 7

/-- A kernel of 2 MiB, with the directory in frame `0x105`. -/
def linkedImage : BootImage :=
  let b : BootImage :=
    { bootstrapper := 0xC0100000
      boot := 0xC0100024
      pdVirtualAddress := 0xC0105000
      kstack := 0xC0110000
      kernelPhysStart := 0x100000
      kernelPhysEnd := 0x200000
      kernelMain := 0xC0101000
      size := encodedSize
      fetched := fun _ => none }
  { b with fetched := fun p => (List.range 20).findSome? fun k =>
      if p = b.address k - kernelVirtualOffset then b.code[k]? else none }

/-- The linked image is placed as the linker script has it. -/
theorem linkedImage_linked : linkedImage.Linked := by
  refine ⟨by decide, fun k hk => ?_, by decide, by decide, by decide, by decide, by decide,
    by decide, by decide, by decide, by decide⟩
  rw [code_length] at hk
  interval_cases k <;> rfl

/-- The state in which the boot loader enters it, with the information it passes at `0x9000`. -/
def loadedCpu : BootCpu where
  core :=
    { ram :=
        store32 (store32 (fun _ => 0) (entryAddr 0x105 0) 0x83#32) (entryAddr 0x105 768) 0x83#32
      cr0 := 0x11
      cr3 := 0
      cr4 := 0
      eax := 0x2BADB002
      ebx := 0x9000
      ecx := 0
      esp := 0x7000
      eip := 0x100000
      interrupts := false }
  tlb := fun _ => some 0x27

/-- The loaded processor is in the state in which a boot loader enters the kernel. -/
theorem loadedCpu_entered : linkedImage.Entered loadedCpu.core := by
  refine ⟨by decide, by decide, fun i => ?_⟩
  have hframe : frameOf linkedImage.pdPhysicalAddress = 0x105 := by decide
  have hzero : entry (fun _ => 0) 0x105 i = 0#32 := by
    have hbytes : ofBytes 0 0 0 0 = 0#32 := by decide
    exact hbytes
  rw [hframe]
  change entry (store32 (store32 _ (entryAddr 0x105 0) _) (entryAddr 0x105 768) _) 0x105 i = _
  simp only [entry_store32, true_and, hzero]
  split_ifs <;> simp_all

/-- The bootstrapper enters the upper half with a buffer for translations that fills up as it
runs. -/
theorem bootstrapper_enters_upper_half_filling : ∃ s',
    runEvents (BootCpu.step linkedImage) loadedCpu
      (List.replicate 20 ⟨fun _ => false, fun _ => true⟩) = .ok s' ∧
      linkedImage.UpperHalf loadedCpu.core s' :=
  bootstrapper_enters_upper_half linkedImage_linked loadedCpu_entered (List.length_replicate ..)

end BootImage

end Muk
