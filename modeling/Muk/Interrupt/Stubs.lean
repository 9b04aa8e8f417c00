import Muk.Lib.X86
import Muk.Proc.Thread

/-!
# The interrupt stubs

Each vector has a stub that pushes its number, over a zero where the processor pushes no error
code, and jumps to the common code. That code saves the registers as the struct `registers`,
hands it to `isr_handler`, and restores them from it: whatever the handler does with the
registers, the interrupted code finds them as they were.
-/

namespace Muk

open X86

/-! ## The assembly code -/

/-- `isr_common_stub` -/
def isrCommonStub : List Instr :=
  [.pushad,
    .pushSeg .ds, .pushSeg .es, .pushSeg .fs, .pushSeg .gs,
    .movAx 0x10, -- kernel data segment
    .movSegAx .ds, .movSegAx .es, .movSegAx .fs, .movSegAx .gs,
    .pushReg .esp,
    .call, -- isr_handler
    .addEsp 4,
    .popSeg .gs, .popSeg .fs, .popSeg .es, .popSeg .ds,
    .popad,
    .addEsp 8, -- removes the error code and isr num
    .iret]

/-- A stub that pushes a dummy error code, with the common code to which it jumps. -/
def dummyStub (n : Byte) : List Instr := .cli :: .pushByte 0 :: .pushByte n :: isrCommonStub

/-- A stub that leaves the error code to the processor. -/
def errorStub (n : Byte) : List Instr := .cli :: .pushByte n :: isrCommonStub

def isr0 : List Instr := dummyStub 0
def isr1 : List Instr := dummyStub 1
def isr2 : List Instr := dummyStub 2
def isr3 : List Instr := dummyStub 3
def isr4 : List Instr := dummyStub 4
def isr5 : List Instr := dummyStub 5
def isr6 : List Instr := dummyStub 6
def isr7 : List Instr := dummyStub 7
def isr8 : List Instr := errorStub 8
def isr9 : List Instr := dummyStub 9
def isr10 : List Instr := errorStub 10
def isr11 : List Instr := errorStub 11
def isr12 : List Instr := errorStub 12
def isr13 : List Instr := errorStub 13
def isr14 : List Instr := errorStub 14
def isr15 : List Instr := dummyStub 15
def isr16 : List Instr := dummyStub 16
def isr17 : List Instr := dummyStub 17
def isr18 : List Instr := dummyStub 18
def isr19 : List Instr := dummyStub 19
def isr20 : List Instr := dummyStub 20
def isr21 : List Instr := dummyStub 21
def isr22 : List Instr := dummyStub 22
def isr23 : List Instr := dummyStub 23
def isr24 : List Instr := dummyStub 24
def isr25 : List Instr := dummyStub 25
def isr26 : List Instr := dummyStub 26
def isr27 : List Instr := dummyStub 27
def isr28 : List Instr := dummyStub 28
def isr29 : List Instr := dummyStub 29
def isr30 : List Instr := dummyStub 30
def isr31 : List Instr := dummyStub 31
def isr32 : List Instr := dummyStub 32
def isr33 : List Instr := dummyStub 33
def isr34 : List Instr := dummyStub 34
def isr35 : List Instr := dummyStub 35
def isr36 : List Instr := dummyStub 36
def isr37 : List Instr := dummyStub 37
def isr38 : List Instr := dummyStub 38
def isr39 : List Instr := dummyStub 39
def isr40 : List Instr := dummyStub 40
def isr41 : List Instr := dummyStub 41
def isr42 : List Instr := dummyStub 42
def isr43 : List Instr := dummyStub 43
def isr44 : List Instr := dummyStub 44
def isr45 : List Instr := dummyStub 45
def isr46 : List Instr := dummyStub 46
def isr47 : List Instr := dummyStub 47
/-- The syscall. -/
def isr128 : List Instr := dummyStub 128
/-- The schedule interrupt. -/
def isr130 : List Instr := dummyStub 130

/-- The vectors with a stub. -/
def isrs : List (ℕ × List Instr) :=
  [(0, isr0), (1, isr1), (2, isr2), (3, isr3), (4, isr4), (5, isr5), (6, isr6), (7, isr7),
    (8, isr8), (9, isr9), (10, isr10), (11, isr11), (12, isr12), (13, isr13), (14, isr14),
    (15, isr15), (16, isr16), (17, isr17), (18, isr18), (19, isr19), (20, isr20), (21, isr21),
    (22, isr22), (23, isr23), (24, isr24), (25, isr25), (26, isr26), (27, isr27), (28, isr28),
    (29, isr29), (30, isr30), (31, isr31), (32, isr32), (33, isr33), (34, isr34), (35, isr35),
    (36, isr36), (37, isr37), (38, isr38), (39, isr39), (40, isr40), (41, isr41), (42, isr42),
    (43, isr43), (44, isr44), (45, isr45), (46, isr46), (47, isr47), (128, isr128),
    (130, isr130)]

/-! ## The struct `registers` -/

namespace Registers

def gs : ℕ := 0
def fs : ℕ := 4
def es : ℕ := 8
def ds : ℕ := 12
def isrNum : ℕ := 48
def cs : ℕ := 60
def ss : ℕ := 72

/-- The field with the name of a general register. -/
def ofReg : Reg → ℕ
  | .edi => edi
  | .esi => esi
  | .ebp => ebp
  | .esp => esp
  | .ebx => ebx
  | .edx => edx
  | .ecx => ecx
  | .eax => eax

/-- The field with the name of a segment register. -/
def ofSeg : Seg → ℕ
  | .gs => gs
  | .fs => fs
  | .es => es
  | .ds => ds
  | .cs => cs
  | .ss => ss

/-- The bytes of the struct that an interrupt in ring 0 fills: `useresp` and `ss` are not pushed. -/
def ring0Size : ℕ := 68

end Registers

namespace X86.State

/-- The argument of the function that was just called: a pointer to `registers`. -/
def registers (c : State) : Word := c.top 1

/-- A field of the struct at the argument. -/
def field (c : State) (offset : ℕ) : Word := load32 c.mem (c.registers + BitVec.ofNat 32 offset)

end X86.State

/-- The processor pushes an error code, of the exceptions that occur in ring 0. -/
def PushesErrorCode (v : ℕ) : Prop := v = 8 ∨ 10 ≤ v ∧ v ≤ 14

instance (v : ℕ) : Decidable (PushesErrorCode v) := inferInstanceAs (Decidable (_ ∨ _))

/-- The error code of an interrupt with the given vector. -/
def errorCode (v : ℕ) (err : Word) : Option Word := if PushesErrorCode v then some err else none

/-- `isr_handler` returns with its stack balanced and the saved frame as it was handed over.
It may change all else. -/
structure Returns (c t : State) : Prop where
  esp : t.reg .esp = c.reg .esp + 4#32
  frame : ∀ x, (x - c.registers).toNat < Registers.ring0Size → t.mem x = c.mem x

/-- The struct handed over in `c` holds the registers of `s` in the fields of their names. A field
holds a selector in its low half. -/
structure HoldsRegisters (c s : State) : Prop where
  reg : ∀ r, r ≠ .esp → c.field (Registers.ofReg r) = s.reg r
  seg : ∀ g, g ≠ .ss → (c.field (Registers.ofSeg g)).setWidth 16 = s.seg g
  eip : c.field Registers.eip = s.eip
  eflags : c.field Registers.eflags = s.eflags

/-- The registers of `t` that are saved and restored are those of `s`. -/
structure SameRegisters (t s : State) : Prop where
  reg : ∀ r, t.reg r = s.reg r
  seg : ∀ g, g ≠ .ss → t.seg g = s.seg g
  eip : t.eip = s.eip
  eflags : t.eflags = s.eflags

/-! ## Entering a stub -/

section

variable {m : Processor} {isrHandler : State → State} {s u c t : State} {num err offset : Word}
  {selector : Selector} {v : ℕ}

/-- `u` is at `isr_common_stub`, with the number and an error code on the stack. -/
structure Entered (s u : State) (num : Word) : Prop where
  stack : ∃ e csWord : Word, csWord.setWidth 16 = s.seg .cs ∧
    u.OnStack [num, e, s.eip, csWord, s.eflags]
  esp : u.reg .esp = s.reg .esp - 20#32
  reg : ∀ r, r ≠ .esp → u.reg r = s.reg r
  seg : ∀ g, g ≠ .cs → g ≠ .ss → u.seg g = s.seg g

/-- What an interrupt leaves on the stack. -/
theorem interrupt_stack (m : Processor) (s : State) (errorCode : Option Word) (selector : Selector)
    (offset : Word) : ∃ csWord : Word,
    csWord.setWidth 16 = s.seg .cs ∧ (s.interrupt m errorCode selector offset).OnStack
      (errorCode.toList ++ [s.eip, csWord, s.eflags]) := by
  obtain ⟨csWord, hlow, hcs⟩ := (State.onStack_nil.push (s := s) (w := s.eflags)
    (by simp)).pushSeg (m := m) (g := .cs) (by simp)
  have heip := hcs.push (w := s.eip) (by simp)
  refine ⟨csWord, hlow, ?_⟩
  cases errorCode with
  | none => exact heip
  | some err => exact heip.push (w := err) (by simp)

/-- An interrupt without an error code, and a stub that pushes a dummy. -/
theorem entered_dummy (n : Byte) :
    Entered s ((s.interrupt m none selector offset).run m isrHandler
      [.cli, .pushByte 0, .pushByte n]) (n.signExtend 32) := by
  obtain ⟨csWord, hlow, hstack⟩ := interrupt_stack m s none selector offset
  refine ⟨⟨_, csWord, hlow, (hstack.push (w := (0 : Byte).signExtend 32) (by simp)).push
    (by simp)⟩, ?_, ?_, ?_⟩
  · simp [State.interrupt, State.exec]
    bv_omega
  · intro r hr
    simp [State.interrupt, State.exec, hr]
  · intro g hg _
    simp [State.interrupt, State.exec, hg]

/-- An interrupt with an error code, and a stub that pushes none. -/
theorem entered_error (n : Byte) :
    Entered s ((s.interrupt m (some err) selector offset).run m isrHandler
      [.cli, .pushByte n]) (n.signExtend 32) := by
  obtain ⟨csWord, hlow, hstack⟩ := interrupt_stack m s (some err) selector offset
  refine ⟨⟨err, csWord, hlow, hstack.push (by simp)⟩, ?_, ?_, ?_⟩
  · simp [State.interrupt, State.exec]
    bv_omega
  · intro r hr
    simp [State.interrupt, State.exec, hr]
  · intro g hg _
    simp [State.interrupt, State.exec, hg]

/-- The vectors that have a stub. -/
def stubVectors : List ℕ := List.range 48 ++ [128, 130]

/-- The stub of a vector pushes a dummy exactly where the processor pushes no error code. -/
theorem isrs_eq : isrs = stubVectors.map fun v => (v, if PushesErrorCode v then
    errorStub (BitVec.ofNat 8 v) else dummyStub (BitVec.ofNat 8 v)) := rfl

/-! ## The common code -/

/-- The pushes of the registers. -/
def pushRegisters : List Instr := [.pushad, .pushSeg .ds, .pushSeg .es, .pushSeg .fs, .pushSeg .gs]

/-- The loads of the kernel data segment. -/
def loadSegments : List Instr :=
  [.movAx 0x10, .movSegAx .ds, .movSegAx .es, .movSegAx .fs, .movSegAx .gs]

/-- The pops of the registers. -/
def popRegisters : List Instr :=
  [.addEsp 4, .popSeg .gs, .popSeg .fs, .popSeg .es, .popSeg .ds, .popad]

/-- The stub pushes, calls the handler and pops what it pushed, in the reverse order. -/
theorem isrCommonStub_eq : isrCommonStub = (pushRegisters ++ loadSegments ++ [.pushReg .esp]) ++
    .call :: (popRegisters ++ [.addEsp 8, .iret]) := rfl

/-- The words of the saved frame, from `gs` up. -/
def frameWords (s : State) (segWord : Seg → Word) (num e esp : Word) : List Word :=
  [segWord .gs, segWord .fs, segWord .es, segWord .ds] ++
    (State.pushadWords (Function.update s.reg .esp esp) ++
      [num, e, s.eip, segWord .cs, s.eflags])

/-- The frame on the stack has 17 words. -/
theorem length_frameWords {segWord : Seg → Word} {e esp : Word} :
    (frameWords s segWord num e esp).length = 17 := rfl

/-- The stack begins with a saved frame of the registers of `s`. -/
def OnStackFrame (s t : State) (num : Word) : Prop :=
  ∃ segWord e esp, (∀ g, g ≠ .ss → (segWord g : Word).setWidth 16 = s.seg g) ∧
    t.OnStack (frameWords s segWord num e esp)

/-- The words that hold the segment registers. `ss` is not pushed. -/
def segWords (cs ds es fs gs : Word) : Seg → Word
  | .cs => cs
  | .ss => 0
  | .ds => ds
  | .es => es
  | .fs => fs
  | .gs => gs

/-- The frame after the pushes. -/
theorem Entered.pushed (h : Entered s u num) (m : Processor) (isrHandler : State → State) :
    OnStackFrame s (u.run m isrHandler pushRegisters) num ∧
      (u.run m isrHandler pushRegisters).reg .esp = s.reg .esp - 68#32 := by
  obtain ⟨⟨e, csWord, hcs, hu⟩, hesp, hreg, hseg⟩ := h
  unfold pushRegisters
  simp only [State.run_cons, State.run_nil, State.exec]
  have hpushad := hu.pushad (by simp)
  have hregs : u.reg = Function.update s.reg .esp (u.reg .esp) := by
    funext r
    by_cases hr : r = .esp
    · simp [hr]
    · simp [hr, hreg]
  rw [hregs] at hpushad
  obtain ⟨dsWord, hds, hstack⟩ := hpushad.pushSeg (m := m) (g := .ds) (by simp [State.pushadWords])
  obtain ⟨esWord, hes, hstack⟩ := hstack.pushSeg (m := m) (g := .es) (by simp [State.pushadWords])
  obtain ⟨fsWord, hfs, hstack⟩ := hstack.pushSeg (m := m) (g := .fs) (by simp [State.pushadWords])
  obtain ⟨gsWord, hgs, hstack⟩ := hstack.pushSeg (m := m) (g := .gs) (by simp [State.pushadWords])
  refine ⟨⟨segWords csWord dsWord esWord fsWord gsWord, e, u.reg .esp, ?_, hstack⟩, ?_⟩
  · intro g hg
    cases g with
    | cs => exact hcs
    | ss => exact absurd rfl hg
    | ds => exact hds.trans (hseg _ (by decide) hg)
    | es => exact hes.trans (hseg _ (by decide) hg)
    | fs => exact hfs.trans (hseg _ (by decide) hg)
    | gs => exact hgs.trans (hseg _ (by decide) hg)
  · simp [hesp]
    bv_omega

/-- Loading the kernel data segment leaves the stack alone. -/
theorem OnStackFrame.loaded (h : OnStackFrame s u num) (m : Processor)
    (isrHandler : State → State) :
    OnStackFrame s (u.run m isrHandler loadSegments) num ∧
      (u.run m isrHandler loadSegments).reg .esp = u.reg .esp := by
  obtain ⟨segWord, e, esp, hseg, hstack⟩ := h
  have hesp : (u.run m isrHandler loadSegments).reg .esp = u.reg .esp := by
    simp [loadSegments, State.exec]
  exact ⟨⟨segWord, e, esp, hseg, hstack.of_eq (by simp [loadSegments, State.exec]) hesp⟩, hesp⟩

/-- The state in which the handler is called: its argument points to the frame. -/
structure Handed (s c : State) (num : Word) : Prop where
  frame : OnStackFrame s (c.drop 2) num
  registers : c.registers = c.reg .esp + 8#32
  esp : c.reg .esp = s.reg .esp - 76#32

/-- The handler is called with a pointer to the frame of the interrupted code. -/
theorem Entered.handed (h : Entered s u num) :
    Handed s (u.atCall m isrHandler isrCommonStub) num := by
  rw [isrCommonStub_eq, State.atCall_eq (by decide), State.run_append, State.run_append]
  obtain ⟨hframe, hesp⟩ := h.pushed m isrHandler
  obtain ⟨hframe, hesp'⟩ := hframe.loaded m isrHandler
  rw [hesp] at hesp'
  generalize (u.run m isrHandler pushRegisters).run m isrHandler loadSegments = k at hframe hesp'
  obtain ⟨segWord, e, esp, hseg, hstack⟩ := hframe
  have hcall := (hstack.push (w := k.reg .esp) (by rw [length_frameWords]; decide)).push
    (w := (k.push (k.reg .esp)).eip) (by rw [List.length_cons, length_frameWords]; decide)
  simp only [State.run_cons, State.run_nil, State.exec]
  refine ⟨⟨segWord, e, esp, hseg, State.OnStack.drop [_, _] hcall rfl⟩, ?_, ?_⟩
  · unfold State.registers
    rw [hcall 1 (by simp)]
    simp only [List.getElem_cons_succ, List.getElem_cons_zero, State.push_esp]
    bv_omega
  · simp [hesp']
    bv_omega

/-- A field of the struct is a word of the frame. -/
theorem field_eq {ws : List Word} (hreg : c.registers = c.reg .esp + 8#32)
    (h : (c.drop 2).OnStack ws) (i : ℕ) (hi : i < ws.length) : c.field (4 * i) = ws[i] := by
  rw [← h i hi]
  unfold State.field State.top
  rw [hreg]
  simp

/-- The struct handed over holds the interrupted registers, and the number that the stub pushed. -/
theorem Handed.holdsRegisters (h : Handed s c num) :
    HoldsRegisters c s ∧ c.field Registers.isrNum = num := by
  obtain ⟨segWord, e, esp, hseg, hstack⟩ := h.frame
  have hfield (i : ℕ) (hi : i < 17) := field_eq h.registers hstack i hi
  refine ⟨⟨?_, ?_, hfield 14 (by decide), hfield 16 (by decide)⟩, hfield 12 (by decide)⟩
  · intro r hr
    cases r with
    | edi => exact hfield 4 (by decide)
    | esi => exact hfield 5 (by decide)
    | ebp => exact hfield 6 (by decide)
    | esp => exact absurd rfl hr
    | ebx => exact hfield 8 (by decide)
    | edx => exact hfield 9 (by decide)
    | ecx => exact hfield 10 (by decide)
    | eax => exact hfield 11 (by decide)
  · intro g hg
    rw [← hseg g hg]
    congr 1
    cases g with
    | gs => exact hfield 0 (by decide)
    | fs => exact hfield 1 (by decide)
    | es => exact hfield 2 (by decide)
    | ds => exact hfield 3 (by decide)
    | cs => exact hfield 15 (by decide)
    | ss => exact absurd rfl hg

/-- From a handler that returns, the pops undo the pushes. -/
theorem Handed.popped (h : Handed s c num) (hret : Returns c t) :
    Entered s (t.run m isrHandler popRegisters) num := by
  obtain ⟨segWord, e, esp, hseg, hstack⟩ := h.frame
  have hdrop : (c.drop 2).reg .esp = c.registers := by
    rw [h.registers]
    simp
  unfold popRegisters
  simp only [State.run_cons, State.run_nil]
  -- the handler returns with its argument on top of the frame
  have hesp : (t.exec m isrHandler (.addEsp 4)).reg .esp = (c.drop 2).reg .esp := by
    rw [State.addEsp_esp, hret.esp, State.drop_esp, show (4 : Byte).signExtend 32 = 4#32 from rfl]
    bv_omega
  have hframe : (t.exec m isrHandler (.addEsp 4)).OnStack (frameWords s segWord num e esp) := by
    apply hstack.congr (by rw [length_frameWords]; decide) hesp
    intro x hx
    rw [hdrop, length_frameWords] at hx
    exact hret.frame x hx
  generalize t.exec m isrHandler (.addEsp 4) = t₁ at hesp hframe
  obtain ⟨hfs, hespfs, hsegfs⟩ := State.OnStack.popSeg (g := .gs) hframe
  obtain ⟨hes, hespes, hseges⟩ := hfs.popSeg (g := .fs)
  obtain ⟨hds, hespds, hsegds⟩ := hes.popSeg (g := .es)
  obtain ⟨hedi, hespedi, hsegedi⟩ := hds.popSeg (g := .ds)
  obtain ⟨hnum, hespnum, hsegnum, hregs⟩ := hedi.popad
  refine ⟨⟨e, segWord .cs, hseg .cs (by decide), hnum⟩, ?_, ?_, ?_⟩
  · have hespc := h.esp
    simp only [State.exec, hespnum, hespedi, hespds, hespes, hespfs, hesp, State.drop_esp, hespc]
    bv_omega
  · intro r hr
    exact (hregs r hr).trans (Function.update_of_ne hr _ _)
  · intro g hcs hss
    simp only [State.exec, hsegnum, hsegedi, hsegds, hseges, hsegfs, Function.update_apply]
    cases g with
    | cs => exact absurd rfl hcs
    | ss => exact absurd rfl hss
    | ds => simpa using hseg .ds hss
    | es => simpa using hseg .es hss
    | fs => simpa using hseg .fs hss
    | gs => simpa using hseg .gs hss

/-- The error code and the number are dropped, and `iret` returns to the interrupted code. -/
theorem Entered.returned (h : Entered s u num) (hring : s.seg .cs &&& 3 = 0) :
    SameRegisters (u.run m isrHandler [.addEsp 8, .iret]) s := by
  obtain ⟨⟨e, csWord, hcs, hstack⟩, hesp, hreg, hseg⟩ := h
  have hframe : (u.exec m isrHandler (.addEsp 8)).OnStack [s.eip, csWord, s.eflags] :=
    State.OnStack.addEsp [num, e] hstack rfl
  have hiret := hframe.iret (by rw [hcs]; exact hring)
  have hrun : u.run m isrHandler [.addEsp 8, .iret] =
      (u.exec m isrHandler (.addEsp 8)).iret := rfl
  rw [hrun, hiret, hcs]
  refine ⟨?_, ?_, rfl, rfl⟩
  · intro r
    by_cases hr : r = .esp
    · subst hr
      simp only [State.setSeg_reg, State.drop_esp, State.addEsp_esp, hesp,
        show (8 : Byte).signExtend 32 = 8#32 from rfl]
      bv_omega
    · simp [hr, hreg]
  · intro g hss
    by_cases hg : g = .cs
    · subst hg
      simp
    · simp [hg, hseg g hg hss]

/-- Every stub brings the processor to the common code with its number on the stack. -/
theorem entered_isr (m : Processor) (isrHandler : State → State) (s : State) (err offset : Word)
    (selector : Selector) {stub : List Instr} (hv : (v, stub) ∈ isrs) : ∃ before,
    stub = before ++ isrCommonStub ∧ .call ∉ before ∧
      Entered s ((s.interrupt m (errorCode v err) selector offset).run m isrHandler before)
        ((BitVec.ofNat 8 v).signExtend 32) := by
  rw [isrs_eq, List.mem_map] at hv
  obtain ⟨w, -, hw⟩ := hv
  rw [Prod.mk.injEq] at hw
  obtain ⟨rfl, rfl⟩ := hw
  unfold errorCode
  by_cases hpush : PushesErrorCode w
  · rw [if_pos hpush, if_pos hpush]
    exact ⟨_, rfl, by simp, entered_error _⟩
  · rw [if_neg hpush, if_neg hpush]
    exact ⟨_, rfl, by simp, entered_dummy _⟩

/-- Every stub calls the handler with the frame at its argument. -/
theorem handed_isr {stub : List Instr} (hv : (v, stub) ∈ isrs) :
    Handed s ((s.interrupt m (errorCode v err) selector offset).atCall m isrHandler stub)
      ((BitVec.ofNat 8 v).signExtend 32) := by
  obtain ⟨before, rfl, hbefore, hentered⟩ := entered_isr m isrHandler s err offset selector hv
  rw [State.atCall_append hbefore]
  exact hentered.handed

/-- What follows the call is the same for every stub. -/
theorem run_isr {stub : List Instr} (hv : (v, stub) ∈ isrs) : u.run m isrHandler stub =
    ((isrHandler (u.atCall m isrHandler stub)).run m isrHandler popRegisters).run m isrHandler
      [.addEsp 8, .iret] := by
  obtain ⟨before, rfl, hbefore, -⟩ := entered_isr m isrHandler u 0 0 0 hv
  have hcommon : .call ∉ before ++ (pushRegisters ++ loadSegments ++ [.pushReg .esp]) := by
    rw [List.mem_append, not_or]
    exact ⟨hbefore, by decide⟩
  rw [isrCommonStub_eq, ← List.append_assoc, State.run_atCall hcommon, State.run_append]

/-- **Interrupts are transparent to the interrupted code.** Every stub hands the interrupted
registers to the handler, and restores them when the handler returns. -/
theorem interrupt_transparent (m : Processor) (isrHandler : State → State) {stub : List Instr}
    (hv : (v, stub) ∈ isrs) (s : State) (hring : s.seg .cs &&& 3 = 0) (err offset : Word)
    (selector : Selector) :
    let entry := s.interrupt m (errorCode v err) selector offset
    let c := entry.atCall m isrHandler stub
    HoldsRegisters c s ∧
      (Returns c (isrHandler c) → SameRegisters (entry.run m isrHandler stub) s) := by
  intro entry c
  have hhanded : Handed s c ((BitVec.ofNat 8 v).signExtend 32) := handed_isr hv
  refine ⟨hhanded.holdsRegisters.1, fun hret => ?_⟩
  rw [run_isr hv]
  exact (hhanded.popped hret).returned hring

/-- A processor that pushes selectors zero-extended. -/
def zeroExtending : Processor where
  pushedSeg _ sel := sel.setWidth 32
  pushedSeg_low _ sel := BitVec.setWidth_setWidth_of_le sel (by decide)
  addFlags eflags _ _ := eflags

/-- A handler that returns with zeros in all registers. -/
def clobber (c : State) : State where
  mem := c.mem
  reg := fun r => if r = .esp then c.reg .esp + 4#32 else 0
  seg := fun _ => 0
  eip := 0
  eflags := 0

/-- Code of the kernel that is interrupted by the timer. -/
def interrupted : State where
  mem := fun _ => 0
  reg := fun r => if r = .esp then 0xC0100000 else 7
  seg := fun g => if g = .cs then 0x08 else 0x10
  eip := 0xC0001000
  eflags := 0x202

/-- The timer interrupt of a running thread is transparent, with a handler that changes
registers. -/
theorem interrupt_transparent_timer :
    let entry := interrupted.interrupt zeroExtending (errorCode 32 0) 0x08 0xC0002000
    HoldsRegisters (entry.atCall zeroExtending clobber isr32) interrupted ∧
      SameRegisters (entry.run zeroExtending clobber isr32) interrupted := by
  intro entry
  have hv : (32, isr32) ∈ isrs := by simp [isrs]
  obtain ⟨hholds, hsame⟩ := interrupt_transparent zeroExtending clobber hv interrupted
    (by decide) 0 0xC0002000 0x08
  exact ⟨hholds, hsame ⟨rfl, fun _ _ => rfl⟩⟩

end

end Muk
