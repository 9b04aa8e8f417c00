import Muk.Proc.ThreadRing
import Muk.Lib.RoundRobin

/-!
# Switching threads

`Scheduler::next` moves on to the next thread of the ring. The registers of the thread
that is left go onto its own stack and its stack pointer into its own `state_reg.esp`;
the registers of the next thread come from its stack. The assembly routines are modelled
instruction by instruction.
-/

namespace Muk

open Thread (field)

namespace Kernel

/-! ## `switch.s` -/

def push (k : Kernel) (v : Word) : Kernel :=
  { k with
    mem := store32 k.mem (k.cpu.esp - 4#32) v
    cpu := { k.cpu with esp := k.cpu.esp - 4#32 } }

/-- `pop`, into the register that `set` writes. -/
def pop (k : Kernel) (set : Cpu → Word → Cpu) : Kernel :=
  { k with cpu := set { k.cpu with esp := k.cpu.esp + 4#32 } (load32 k.mem k.cpu.esp) }

/-- The end of `set_context` and of `switch_context`: pop the registers, `sti`, and jmp
back to the task's eip. -/
def restore (k : Kernel) : Kernel :=
  let k := k.pop fun c v => { c with edi := v }
  let k := k.pop fun c v => { c with esi := v }
  let k := k.pop fun c v => { c with ebx := v }
  let k := k.pop fun c v => { c with ebp := v }
  let k := { k with cpu := { k.cpu with interrupts := true } }
  k.pop fun c v => { c with eip := v }

/-- `set_context`, entered with the return address on top of the stack. -/
def setContext (k : Kernel) : Kernel :=
  let ecx := load32 k.mem (k.cpu.esp + 4#32)
  restore { k with cpu := { k.cpu with esp := load32 k.mem ecx } }

/-- `switch_context`, entered with the return address on top of the stack. -/
def switchContext (k : Kernel) : Kernel :=
  let eax := load32 k.mem (k.cpu.esp + 4#32)
  let ecx := load32 k.mem (k.cpu.esp + 8#32)
  let k := (((k.push k.cpu.ebp).push k.cpu.ebx).push k.cpu.esi).push k.cpu.edi
  let k := { k with mem := store32 k.mem eax k.cpu.esp }
  restore { k with cpu := { k.cpu with esp := load32 k.mem ecx } }

/-! ## `Scheduler::next` -/

/-- Save the previous thread's state, unless the interrupt frame is not on the heap. -/
def saveState (k : Kernel) (r : Word) : Kernel :=
  if 0xE0000000#32 < load32 k.mem (r + BitVec.ofNat 32 Registers.esp) then
    { k with mem := memcpy k.mem (field k.threadRunning Thread.stateReg) r Registers.size }
  else k

/-- `Scheduler::next`, for the interrupt frame at `r`. The call of the assembly routine
pushes its arguments and the given return address. -/
def next (k : Kernel) (r returnAddress : Word) : Kernel :=
  let k := { k with cpu := { k.cpu with interrupts := false } }
  if k.started then
    let k := k.saveState r
    let k := { k with threadRunning := load32 k.mem (field k.threadRunning Thread.next) }
    let last := load32 k.mem (field k.threadRunning Thread.prev)
    let k := k.push (field k.threadRunning (Thread.stateReg + Registers.esp))
    let k := k.push (field last (Thread.stateReg + Registers.esp))
    switchContext (k.push returnAddress)
  else
    let k := { k with started := true }
    let k := k.push (field k.threadRunning Thread.stackPtr)
    setContext (k.push returnAddress)

/-! ## What the assembly does -/

variable {k : Kernel}

/-- The registers taken from the five words at a stack pointer. -/
def resumed (m : Mem) (sp : Word) : Cpu where
  edi := load32 m (sp + BitVec.ofNat 32 0)
  esi := load32 m (sp + BitVec.ofNat 32 4)
  ebx := load32 m (sp + BitVec.ofNat 32 8)
  ebp := load32 m (sp + BitVec.ofNat 32 12)
  eip := load32 m (sp + BitVec.ofNat 32 16)
  esp := sp + 20#32
  interrupts := true

/-- Restoring a context loads the registers from the stack, and leaves memory as it is. -/
theorem restore_eq (k : Kernel) : k.restore = { k with cpu := resumed k.mem k.cpu.esp } := by
  have h4 (sp : Word) : sp + 4#32 + 4#32 = sp + 8#32 := by bv_omega
  have h8 (sp : Word) : sp + 8#32 + 4#32 = sp + 12#32 := by bv_omega
  have h12 (sp : Word) : sp + 12#32 + 4#32 = sp + 16#32 := by bv_omega
  have h16 (sp : Word) : sp + 16#32 + 4#32 = sp + 20#32 := by bv_omega
  simp only [restore, pop, resumed, h4, h8, h12, h16, BitVec.add_zero]

/-- The words that a call of `switch_context` and the routine itself push, from the last
one upwards. -/
def switchFields (c : Cpu) (nextEsp lastEsp returnAddress : Word) : List (ℕ × Word) :=
  [(24, nextEsp), (20, lastEsp), (16, returnAddress), (12, c.ebp), (8, c.ebx), (4, c.esi),
    (0, c.edi)]

/-- A switch writes whole fields in the first 28 bytes of the frame. -/
theorem switchFields_offset {c : Cpu} {nextEsp lastEsp returnAddress : Word} {f : ℕ × Word}
    (hf : f ∈ switchFields c nextEsp lastEsp returnAddress) : FieldOffset f.1 ∧ f.1 + 4 ≤ 28 := by
  have hall : ∀ offset ∈ (switchFields c nextEsp lastEsp returnAddress).map Prod.fst,
      FieldOffset offset ∧ offset + 4 ≤ 28 := by
    change ∀ offset ∈ ([24, 20, 16, 12, 8, 4, 0] : List ℕ), _
    decide
  exact hall f.1 (List.mem_map_of_mem hf)

/-- Memory after the outgoing thread is saved. -/
def switchedMem (k : Kernel) (nextEsp lastEsp returnAddress : Word) : Mem :=
  store32 (storeFields k.mem (k.cpu.esp - 28#32)
    (switchFields k.cpu nextEsp lastEsp returnAddress)) lastEsp (k.cpu.esp - 28#32)

/-- A call of `switch_context` saves the registers of the caller below its arguments,
and takes those of the next thread from where its stack pointer points. -/
theorem switchContext_call (k : Kernel) (nextEsp lastEsp returnAddress : Word) :
    switchContext (((k.push nextEsp).push lastEsp).push returnAddress) =
      { k with
        mem := k.switchedMem nextEsp lastEsp returnAddress
        cpu := resumed (k.switchedMem nextEsp lastEsp returnAddress)
          (load32 (k.switchedMem nextEsp lastEsp returnAddress) nextEsp) } := by
  obtain ⟨sp, hsp⟩ : ∃ sp, sp = k.cpu.esp - 28#32 := ⟨_, rfl⟩
  have h24 : k.cpu.esp - 4#32 = sp + BitVec.ofNat 32 24 := by bv_omega
  have h20 : sp + BitVec.ofNat 32 24 - 4#32 = sp + BitVec.ofNat 32 20 := offset_sub_four sp 20
  have h16 : sp + BitVec.ofNat 32 20 - 4#32 = sp + BitVec.ofNat 32 16 := offset_sub_four sp 16
  have h12 : sp + BitVec.ofNat 32 16 - 4#32 = sp + BitVec.ofNat 32 12 := offset_sub_four sp 12
  have h8 : sp + BitVec.ofNat 32 12 - 4#32 = sp + BitVec.ofNat 32 8 := offset_sub_four sp 8
  have h4 : sp + BitVec.ofNat 32 8 - 4#32 = sp + BitVec.ofNat 32 4 := offset_sub_four sp 4
  have h0 : sp + BitVec.ofNat 32 4 - 4#32 = sp := BitVec.add_sub_cancel sp _
  let m := storeFields k.mem sp [(24, nextEsp), (20, lastEsp), (16, returnAddress)]
  have hcall : ((k.push nextEsp).push lastEsp).push returnAddress =
      { k with mem := m, cpu := { k.cpu with esp := sp + BitVec.ofNat 32 16 } } := by
    simp only [push, h24, h20, h16, m, storeFields, List.foldl_cons, List.foldl_nil]
  have hoffsets : ∀ f ∈ [(24, nextEsp), (20, lastEsp), (16, returnAddress)], FieldOffset f.1 := by
    simp [FieldOffset]
  have hlast : load32 m (sp + BitVec.ofNat 32 16 + 4#32) = lastEsp := by
    rw [offset_add sp 16 4]
    exact load32_storeFields (by decide) hoffsets
  have hnext : load32 m (sp + BitVec.ofNat 32 16 + 8#32) = nextEsp := by
    rw [offset_add sp 16 8]
    exact load32_storeFields (by decide) hoffsets
  have hsaved : store32 (store32 (store32 (store32 m (sp + BitVec.ofNat 32 12) k.cpu.ebp)
      (sp + BitVec.ofNat 32 8) k.cpu.ebx) (sp + BitVec.ofNat 32 4) k.cpu.esi)
      sp k.cpu.edi =
        storeFields k.mem sp (switchFields k.cpu nextEsp lastEsp returnAddress) := by
    simp only [m, storeFields, switchFields, List.foldl_cons, List.foldl_nil, BitVec.add_zero]
  rw [hcall, switchContext, restore_eq]
  simp only [push, hlast, hnext, h12, h8, h4, h0, hsaved, ← hsp, switchedMem]

/-- A call of `set_context` takes the registers from where the stack pointer points. -/
theorem setContext_call (k : Kernel) (nextEsp returnAddress : Word) :
    setContext ((k.push nextEsp).push returnAddress) =
      let m := storeFields k.mem (k.cpu.esp - 8#32) [(4, nextEsp), (0, returnAddress)]
      { k with mem := m, cpu := resumed m (load32 m nextEsp) } := by
  obtain ⟨sp, hsp⟩ : ∃ sp, sp = k.cpu.esp - 8#32 := ⟨_, rfl⟩
  have h4 : k.cpu.esp - 4#32 = sp + BitVec.ofNat 32 4 := by bv_omega
  have h0 : sp + BitVec.ofNat 32 4 - 4#32 = sp + BitVec.ofNat 32 0 := offset_sub_four sp 0
  let m := storeFields k.mem sp [(4, nextEsp), (0, returnAddress)]
  have hcall : (k.push nextEsp).push returnAddress =
      { k with mem := m, cpu := { k.cpu with esp := sp + BitVec.ofNat 32 0 } } := by
    simp only [push, h4, h0, m, storeFields, List.foldl_cons, List.foldl_nil]
  have hnext : load32 m (sp + BitVec.ofNat 32 0 + 4#32) = nextEsp := by
    rw [offset_add sp 0 4]
    exact load32_storeFields (by decide) (by simp [FieldOffset])
  rw [hcall, setContext, restore_eq]
  simp only [hnext, m, ← hsp]

end Kernel

end Muk
