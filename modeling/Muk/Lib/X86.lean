import Muk.Lib.ByteMemory
import Mathlib.Logic.Function.Basic

/-!
# Saving and restoring a 32-bit x86 processor

The instructions with which a program saves the registers on its stack, calls a function and
restores them, and the interrupt that starts it. The stack is reasoned about as a list of
words, the top first: a push conses, a pop takes the head. Segments are flat, and loading a
segment register does not fault.
-/

namespace Muk.X86

/-- The general registers. -/
inductive Reg where
  | eax | ecx | edx | ebx | esp | ebp | esi | edi
  deriving DecidableEq

/-- The segment registers. -/
inductive Seg where
  | cs | ss | ds | es | fs | gs
  deriving DecidableEq

/-- A selector of a segment. -/
abbrev Selector := BitVec 16

/-- The processor and its memory. `eip` is not advanced from one instruction to the next. -/
structure State where
  mem : Mem
  reg : Reg → Word
  seg : Seg → Selector
  eip : Word
  eflags : Word

/-- What processors do in different ways. A segment register is pushed zero-extended, or its
selector is written over the low half of the word that was there; and the flags after an
addition are left open. -/
structure Processor where
  pushedSeg : Word → Selector → Word
  pushedSeg_low : ∀ old sel, (pushedSeg old sel).setWidth 16 = sel
  addFlags : Word → Word → Word → Word

/-- The instructions. Operands of 32 bits are the default. -/
inductive Instr where
  | cli
  | pushByte (imm : Byte)
  | pushReg (r : Reg)
  | pushSeg (s : Seg)
  | popSeg (s : Seg)
  | pushad
  | popad
  | movAx (imm : BitVec 16)
  | movSegAx (s : Seg)
  | addEsp (imm : Byte)
  | call
  | iret
  deriving DecidableEq

namespace State

/-- The word `i` places below the top of the stack. -/
def top (s : State) (i : ℕ) : Word := load32 s.mem (s.reg .esp + BitVec.ofNat 32 (4 * i))

def setReg (s : State) (r : Reg) (w : Word) : State := { s with reg := Function.update s.reg r w }

def setSeg (s : State) (g : Seg) (sel : Selector) : State :=
  { s with seg := Function.update s.seg g sel }

def push (s : State) (w : Word) : State :=
  { s with
    mem := store32 s.mem (s.reg .esp - 4#32) w
    reg := Function.update s.reg .esp (s.reg .esp - 4#32) }

/-- Take `n` words off the stack. -/
def drop (s : State) (n : ℕ) : State := s.setReg .esp (s.reg .esp + BitVec.ofNat 32 (4 * n))

def popReg (s : State) (r : Reg) : State := (s.drop 1).setReg r (s.top 0)

def popSeg (s : State) (g : Seg) : State := (s.drop 1).setSeg g ((s.top 0).setWidth 16)

/-- A selector goes to the stack over what was there. -/
def pushSeg (m : Processor) (s : State) (g : Seg) : State :=
  s.push (m.pushedSeg (load32 s.mem (s.reg .esp - 4#32)) (s.seg g))

/-- The registers in the order of `pushad`. -/
def pushad (s : State) : State :=
  [Reg.eax, .ecx, .edx, .ebx, .esp, .ebp, .esi, .edi].foldl (fun t r => t.push (s.reg r)) s

/-- `popad` does not restore `esp`. -/
def popad (s : State) : State :=
  let s := [Reg.edi, .esi, .ebp].foldl popReg s
  let s := s.drop 1
  [Reg.ebx, .edx, .ecx, .eax].foldl popReg s

/-- `iret` in ring 0. A return to another ring takes its stack from the frame too. -/
def iret (s : State) : State :=
  let cs : Selector := (s.top 1).setWidth 16
  let t := { (s.drop 3).setSeg .cs cs with eip := s.top 0, eflags := s.top 2 }
  if cs &&& 3 = 0 then t
  else (t.setReg .esp (s.top 3)).setSeg .ss ((s.top 4).setWidth 16)

/-- One instruction. `callee` is the function called, up to and with its `ret`. -/
def exec (m : Processor) (callee : State → State) (s : State) : Instr → State
  | .cli => { s with eflags := s.eflags &&& ~~~0x200#32 }
  | .pushByte imm => s.push (imm.signExtend 32)
  | .pushReg r => s.push (s.reg r)
  | .pushSeg g => s.pushSeg m g
  | .popSeg g => s.popSeg g
  | .pushad => s.pushad
  | .popad => s.popad
  | .movAx imm => s.setReg .eax ((s.reg .eax).extractLsb' 16 16 ++ imm)
  | .movSegAx g => s.setSeg g ((s.reg .eax).setWidth 16)
  | .addEsp imm =>
    let w := imm.signExtend 32
    { s.setReg .esp (s.reg .esp + w) with eflags := m.addFlags s.eflags (s.reg .esp) w }
  | .call => callee (s.push s.eip)
  | .iret => s.iret

/-- Instructions one after the other. -/
def run (m : Processor) (callee : State → State) (s : State) (code : List Instr) : State :=
  code.foldl (exec m callee) s

/-- The state in which the first call of the code enters its callee. -/
def atCall (m : Processor) (callee : State → State) (s : State) (code : List Instr) : State :=
  let t := s.run m callee (code.takeWhile (· ≠ .call))
  t.push t.eip

/-- An interrupt taken in ring 0 through an interrupt gate: `eflags`, `cs`, `eip` and the error
code of the vectors that have one go to the stack, and `IF`, `TF`, `NT`, `RF` and `VM` are
cleared. -/
def interrupt (m : Processor) (s : State) (errorCode : Option Word) (selector : Selector)
    (offset : Word) : State :=
  let t := ((s.push s.eflags).pushSeg m .cs).push s.eip
  let t := errorCode.elim t t.push
  { t.setSeg .cs selector with
    eip := offset
    eflags := s.eflags &&& ~~~0x34300#32 }

/-! ## What the operations change -/

section Simp

variable {m : Processor} {callee : State → State} {s : State} {w : Word} {r r' : Reg} {g g' : Seg}
  {sel : Selector} {n : ℕ}

/-- A push stores the word below the stack pointer. -/
@[simp] theorem push_mem : (s.push w).mem = store32 s.mem (s.reg .esp - 4#32) w := rfl

/-- A push moves the stack pointer down by four. -/
@[simp] theorem push_esp : (s.push w).reg .esp = s.reg .esp - 4#32 := by simp [push]

/-- A push changes no register but the stack pointer. -/
@[simp] theorem push_reg (h : r ≠ .esp) : (s.push w).reg r = s.reg r := by simp [push, h]

/-- A push changes no segment register. -/
@[simp] theorem push_seg : (s.push w).seg = s.seg := rfl

/-- A push of a segment register moves the stack pointer down by four. -/
@[simp] theorem pushSeg_esp : (s.pushSeg m g).reg .esp = s.reg .esp - 4#32 := push_esp

/-- A push of a segment register changes no other register. -/
@[simp] theorem pushSeg_reg (h : r ≠ .esp) : (s.pushSeg m g).reg r = s.reg r := push_reg h

/-- A push of a segment register leaves the segment registers as they are. -/
@[simp] theorem pushSeg_seg : (s.pushSeg m g).seg = s.seg := rfl

/-- Setting a register leaves memory as it is. -/
@[simp] theorem setReg_mem : (s.setReg r w).mem = s.mem := rfl

/-- A register that was set has its new value. -/
@[simp] theorem setReg_same : (s.setReg r w).reg r = w := by simp [setReg]

/-- Setting a register leaves the others as they are. -/
@[simp] theorem setReg_reg (h : r' ≠ r) : (s.setReg r w).reg r' = s.reg r' := by simp [setReg, h]

/-- Setting a segment register leaves memory as it is. -/
@[simp] theorem setSeg_mem : (s.setSeg g sel).mem = s.mem := rfl

/-- Setting a segment register leaves the general registers as they are. -/
@[simp] theorem setSeg_reg : (s.setSeg g sel).reg = s.reg := rfl

/-- A segment register that was set has its new value. -/
@[simp] theorem setSeg_same : (s.setSeg g sel).seg g = sel := by simp [setSeg]

/-- Setting a segment register leaves the others as they are. -/
@[simp] theorem setSeg_seg (h : g' ≠ g) : (s.setSeg g sel).seg g' = s.seg g' := by simp [setSeg, h]

/-- Dropping words leaves memory as it is. -/
@[simp] theorem drop_mem : (s.drop n).mem = s.mem := rfl

/-- Dropping words moves the stack pointer up by four for each. -/
@[simp] theorem drop_esp : (s.drop n).reg .esp = s.reg .esp + BitVec.ofNat 32 (4 * n) := by
  simp [drop]

/-- Dropping words changes no register but the stack pointer. -/
@[simp] theorem drop_reg (h : r ≠ .esp) : (s.drop n).reg r = s.reg r := by simp [drop, h]

/-- Dropping words changes no segment register. -/
@[simp] theorem drop_seg : (s.drop n).seg = s.seg := rfl

section

variable {imm : Byte}

/-- Adding to the stack pointer moves it by the signed number. -/
@[simp] theorem addEsp_esp :
    (s.exec m callee (.addEsp imm)).reg .esp = s.reg .esp + imm.signExtend 32 := by simp [exec]

/-- Adding to the stack pointer changes no other register. -/
@[simp] theorem addEsp_reg (h : r ≠ .esp) :
    (s.exec m callee (.addEsp imm)).reg r = s.reg r := by simp [exec, h]

/-- Adding to the stack pointer changes no segment register. -/
@[simp] theorem addEsp_seg : (s.exec m callee (.addEsp imm)).seg = s.seg := rfl

end

/-- No instructions leave the state as it is. -/
@[simp] theorem run_nil : s.run m callee [] = s := rfl

/-- Instructions run one after the other. -/
@[simp] theorem run_cons {i : Instr} {code : List Instr} :
    s.run m callee (i :: code) = (s.exec m callee i).run m callee code := rfl

/-- Code in two parts runs the first part, and then the second one. -/
theorem run_append {code code' : List Instr} :
    s.run m callee (code ++ code') = (s.run m callee code).run m callee code' :=
  List.foldl_append

/-- Code without a call may be run before looking for one. -/
theorem atCall_append {before code : List Instr} (h : .call ∉ before) :
    s.atCall m callee (before ++ code) = (s.run m callee before).atCall m callee code := by
  have hbefore : (before ++ code).takeWhile (· ≠ .call) =
      before ++ code.takeWhile (· ≠ .call) := by
    apply List.takeWhile_append_of_pos
    intro i hi
    rw [decide_eq_true_eq]
    rintro rfl
    exact h hi
  unfold atCall
  rw [hbefore, run_append]

/-- The state at the call is the one after the instructions before it, with the return address
pushed. -/
theorem atCall_eq {before after : List Instr} (h : .call ∉ before) :
    s.atCall m callee (before ++ .call :: after) =
      (s.run m callee before).push (s.run m callee before).eip := by
  rw [atCall_append h]
  simp [atCall]

/-- A run up to a call, the callee, and the run from there. -/
theorem run_atCall {before after : List Instr} (h : .call ∉ before) :
    s.run m callee (before ++ .call :: after) =
      (callee (s.atCall m callee (before ++ .call :: after))).run m callee after := by
  rw [atCall_eq h, run_append, run_cons]
  rfl

end Simp

/-! ## The stack as a list -/

/-- The stack begins with the given words, the top first. -/
def OnStack (s : State) (ws : List Word) : Prop := ∀ i (h : i < ws.length), s.top i = ws[i]

section OnStack

variable {m : Processor} {s t : State} {w : Word} {ws ws' : List Word} {r : Reg} {g : Seg}
  {n : ℕ}

/-- No words are on every stack. -/
theorem onStack_nil : s.OnStack [] := fun _ h => absurd h (Nat.not_lt_zero _)

/-- A stack depends on `esp` and on its own bytes only. -/
theorem OnStack.congr (h : s.OnStack ws) (hlen : ws.length < 2 ^ 28)
    (hesp : t.reg .esp = s.reg .esp)
    (hmem : ∀ x, (x - s.reg .esp).toNat < 4 * ws.length → t.mem x = s.mem x) : t.OnStack ws := by
  intro i hi
  rw [← h i hi]
  unfold top
  rw [hesp]
  apply load32_congr
  intro x hx
  apply hmem
  bv_omega

/-- The first word on the stack is the one that the stack pointer points to. -/
theorem OnStack.head (h : s.OnStack (w :: ws)) : s.top 0 = w := h 0 (Nat.zero_lt_succ _)

/-- What is on the stack depends on memory and the stack pointer only. -/
theorem OnStack.of_eq (h : s.OnStack ws) (hmem : t.mem = s.mem) (hesp : t.reg .esp = s.reg .esp) :
    t.OnStack ws := by
  intro i hi
  unfold top
  rw [hmem, hesp]
  exact h i hi

/-- Setting a register other than the stack pointer leaves the stack as it is. -/
theorem OnStack.setReg (h : s.OnStack ws) (hr : r ≠ .esp) : (s.setReg r w).OnStack ws :=
  h.of_eq rfl (setReg_reg (Ne.symm hr))

/-- A pushed word is on top of those before, as long as the stack does not wrap. -/
theorem OnStack.push (h : s.OnStack ws) (hlen : ws.length < 2 ^ 28) :
    (s.push w).OnStack (w :: ws) := by
  intro i hi
  unfold top
  cases i with
  | zero => simp
  | succ i =>
    rw [List.length_cons] at hi
    rw [List.getElem_cons_succ, ← h i (by omega), push_mem, push_esp]
    unfold top
    have haddr : s.reg .esp - 4#32 + BitVec.ofNat 32 (4 * (i + 1)) =
        s.reg .esp + BitVec.ofNat 32 (4 * i) := by bv_omega
    rw [haddr]
    apply load32_store32_disjoint <;> bv_omega

/-- A selector is pushed as the low half of a word. -/
theorem OnStack.pushSeg (h : s.OnStack ws) (hlen : ws.length < 2 ^ 28) :
    ∃ w, w.setWidth 16 = s.seg g ∧ (s.pushSeg m g).OnStack (w :: ws) :=
  ⟨_, m.pushedSeg_low _ _, h.push hlen⟩

/-- Dropping as many words as a list has leaves those below it. -/
theorem OnStack.drop (ws : List Word) {ws' : List Word} (h : s.OnStack (ws ++ ws'))
    (hn : ws.length = n) : (s.drop n).OnStack ws' := by
  intro i hi
  have hdrop : (s.drop n).top i = s.top (n + i) := by
    unfold top
    rw [drop_mem, drop_esp]
    congr 1
    bv_omega
  rw [hdrop, h (n + i) (by rw [List.length_append]; omega), List.getElem_append_right (by omega)]
  simp [hn]

/-- Adding to `esp` four bytes for each of some words drops these words from the stack. -/
theorem OnStack.addEsp {callee : State → State} {imm : Byte} (ws : List Word)
    (h : s.OnStack (ws ++ ws'))
    (himm : imm.signExtend 32 = BitVec.ofNat 32 (4 * ws.length)) :
    (s.exec m callee (.addEsp imm)).OnStack ws' :=
  (OnStack.drop ws h rfl).of_eq rfl (by rw [addEsp_esp, drop_esp, himm])

/-- Dropping one word leaves those below it. -/
theorem OnStack.tail (h : s.OnStack (w :: ws)) : (s.drop 1).OnStack ws :=
  OnStack.drop [w] h rfl

/-- A pop leaves the words below the top. -/
theorem OnStack.popReg (h : s.OnStack (w :: ws)) (hr : r ≠ .esp) : (s.popReg r).OnStack ws :=
  h.tail.setReg hr

/-- Popping a selector takes one word from the stack and changes that segment register only. -/
theorem OnStack.popSeg (h : s.OnStack (w :: ws)) : (s.popSeg g).OnStack ws ∧
    (s.popSeg g).reg .esp = s.reg .esp + 4#32 ∧
      (s.popSeg g).seg = Function.update s.seg g (w.setWidth 16) := by
  refine ⟨h.tail.of_eq rfl rfl, ?_, ?_⟩
  · simp [State.popSeg]
  · rw [State.popSeg, h.head]
    rfl

/-- Pushing several words puts them on the stack in the opposite order, where the stack has room. -/
theorem OnStack.pushAll (h : s.OnStack ws) (ws' : List Word)
    (hlen : ws'.length + ws.length < 2 ^ 28) :
    (ws'.foldl State.push s).OnStack (ws'.reverse ++ ws) := by
  induction ws' generalizing s ws with
  | nil => exact h
  | cons w ws' ih =>
    rw [List.length_cons] at hlen
    rw [List.foldl_cons, List.reverse_cons, List.append_assoc]
    exact ih (h.push (by omega)) (by rw [List.length_append, List.length_singleton]; omega)

/-- Popping into several registers gives each of them its word and leaves the other registers
alone. -/
theorem OnStack.popAll (rs : List Reg) {v : Reg → Word} (h : s.OnStack (rs.map v ++ ws))
    (hesp : .esp ∉ rs) (hnodup : rs.Nodup) : (rs.foldl State.popReg s).OnStack ws ∧
      (rs.foldl State.popReg s).reg .esp = s.reg .esp + BitVec.ofNat 32 (4 * rs.length) ∧
      (rs.foldl State.popReg s).seg = s.seg ∧
      ∀ r, r ≠ .esp → (rs.foldl State.popReg s).reg r = if r ∈ rs then v r else s.reg r := by
  induction rs generalizing s with
  | nil => exact ⟨h, by simp, rfl, by simp⟩
  | cons q rs ih =>
    rw [List.mem_cons, not_or] at hesp
    rw [List.nodup_cons] at hnodup
    rw [List.map_cons, List.cons_append] at h
    obtain ⟨hstack, htop, hseg, hreg⟩ := ih (h.popReg (Ne.symm hesp.1)) hesp.2 hnodup.2
    rw [List.foldl_cons]
    refine ⟨hstack, ?_, hseg, fun r hr => ?_⟩
    · rw [htop, State.popReg, setReg_reg hesp.1, drop_esp, List.length_cons]
      bv_omega
    · rw [hreg r hr, State.popReg, h.head]
      by_cases hrq : r = q
      · subst hrq
        simp [hnodup.1]
      · simp [hrq, hr]

end OnStack

/-! ## Saving and restoring all general registers -/

section Pushad

variable {s : State} {ws : List Word} {r : Reg} {v : Reg → Word}

/-- What `pushad` leaves, the top first. -/
def pushadWords (v : Reg → Word) : List Word :=
  [v .edi, v .esi, v .ebp, v .esp, v .ebx, v .edx, v .ecx, v .eax]

/-- `pushad` puts the eight general registers on top of the stack. -/
theorem OnStack.pushad (h : s.OnStack ws) (hlen : ws.length < 2 ^ 27) :
    s.pushad.OnStack (pushadWords s.reg ++ ws) := by
  have := h.pushAll [s.reg .eax, s.reg .ecx, s.reg .edx, s.reg .ebx, s.reg .esp,
    s.reg .ebp, s.reg .esi, s.reg .edi] (by simp only [List.length_cons, List.length_nil]; omega)
  exact this

/-- `pushad` moves the stack pointer down by 32. -/
@[simp] theorem pushad_esp : s.pushad.reg .esp = s.reg .esp - 32#32 := by
  simp only [State.pushad, List.foldl_cons, List.foldl_nil, push_esp]
  bv_omega

/-- `popad` gives the general registers the words that a `pushad` left. -/
theorem OnStack.popad (h : s.OnStack (pushadWords v ++ ws)) : s.popad.OnStack ws ∧
    s.popad.reg .esp = s.reg .esp + 32#32 ∧ s.popad.seg = s.seg ∧
      ∀ r, r ≠ .esp → s.popad.reg r = v r := by
  obtain ⟨hesp, hespr, hespseg, hespreg⟩ :=
    @OnStack.popAll s (v .esp :: v .ebx :: v .edx :: v .ecx :: v .eax :: ws) [.edi, .esi, .ebp] v h
      (by decide) (by decide)
  obtain ⟨hend, hendr, hendseg, hendreg⟩ :=
    @OnStack.popAll _ ws [.ebx, .edx, .ecx, .eax] v hesp.tail (by decide) (by decide)
  unfold State.popad
  refine ⟨hend, ?_, hendseg.trans hespseg, fun r hr => ?_⟩
  · rw [hendr, drop_esp, hespr]
    simp only [List.length_cons, List.length_nil]
    bv_omega
  · rw [hendreg r hr, drop_reg hr, hespreg r hr]
    cases r <;> simp at hr ⊢

end Pushad

/-- `iret` from ring 0 to ring 0 takes the top three words. -/
theorem OnStack.iret {s : State} {eip cs eflags : Word} {ws : List Word}
    (h : s.OnStack (eip :: cs :: eflags :: ws)) (hring : (cs.setWidth 16 : Selector) &&& 3 = 0) :
    s.iret = { (s.drop 3).setSeg .cs (cs.setWidth 16) with eip := eip, eflags := eflags } := by
  unfold State.iret
  rw [h 0 (by simp), h 1 (by simp), h 2 (by simp)]
  simp only [List.getElem_cons_succ, List.getElem_cons_zero]
  rw [if_pos hring]

end State

end Muk.X86
