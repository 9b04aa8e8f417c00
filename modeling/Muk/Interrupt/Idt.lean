import Muk.Interrupt.Stubs
import Muk.Lib.LastWrite

/-!
# Dispatching interrupts

Three tables take an interrupt to its handler: the gates that `idt_install` sets, the stubs that
push the number of the vector, and the array of the functions that were registered. They agree on
the vectors of the IRQs but for 42 and 43, and neither on that of the syscall nor on that of the
scheduler.
-/

namespace Muk

open X86

/-! ## The descriptor table -/

/-- `idt_entry_t` -/
structure IdtEntry where
  offsetLow : BitVec 16
  selector : Selector
  zero : Byte
  typeAttr : Byte
  offsetHigh : BitVec 16

/-- `idt_entries` -/
abbrev Idt := Byte → IdtEntry

namespace IdtEntry

/-- The present bit of a gate. -/
def present (e : IdtEntry) : Bool := e.typeAttr.getLsbD 7

/-- The address to which a gate leads. -/
def offset (e : IdtEntry) : Word := e.offsetHigh ++ e.offsetLow

end IdtEntry

/-- What `idt_set_gate` writes to an entry. -/
def idtGate (offset : Word) (selector : Selector) (flags : Byte) : IdtEntry where
  offsetLow := (offset &&& 0xFFFF).setWidth 16
  selector := selector
  zero := 0
  typeAttr := flags &&& 0xFF
  offsetHigh := ((offset >>> 16) &&& 0xFFFF).setWidth 16

/-- The gates of the exceptions, with the stubs to which they lead. -/
def exceptionGates : List (ℕ × ℕ) :=
  [(0, 0), (1, 1), (2, 2), (3, 3), (4, 4), (5, 5), (6, 6), (7, 7), (8, 8), (9, 9), (10, 10),
    (11, 11), (12, 12), (13, 13), (14, 14), (15, 15), (16, 16), (17, 17), (18, 18), (19, 19),
    (20, 20), (21, 21), (22, 22), (23, 23), (24, 24), (25, 25), (26, 26), (27, 27), (28, 28),
    (29, 29), (30, 30), (31, 31)]

/-- The gates of the IRQs. Gate 42 is not set, and gate 43 leads to `isr42`. -/
def irqGates : List (ℕ × ℕ) :=
  [(32, 32), (33, 33), (34, 34), (35, 35), (36, 36), (37, 37), (38, 38), (39, 39), (40, 40),
    (41, 41), (43, 42), (44, 44), (45, 45), (46, 46), (47, 47)]

/-- The loop over the gates from 49 on. -/
def dummyGates : List (ℕ × ℕ) := (List.range 207).map fun i => (49 + i, 0)

/-- The calls of `idt_set_gate`, in the order of `idt_install`. -/
def gates : List (ℕ × ℕ) := exceptionGates ++ irqGates ++ dummyGates ++ [(0x80, 128), (0x82, 130)]

/-- `idt_install`, with the addresses of the stubs. -/
def idtInstall (isr : ℕ → Word) : Idt :=
  writeAll (fun _ => ⟨0, 0, 0, 0, 0⟩)
    (gates.map fun g => (BitVec.ofNat 8 g.1, idtGate (isr g.2) 0x08 0x8E))

/-! ## The registered functions -/

section

variable {Fn : Type}

/-- `Interrupt::handlers`. A null pointer is `none`. -/
abbrev Handlers (Fn : Type) := Byte → Option Fn

/-- The index that `Interrupt::Register` uses. -/
def irqIndex (irqNum : Word) : Word := irqNum + 0x20#32

/-- `Interrupt::Register` -/
def register (handlers : Handlers Fn) (call : Word × Option Fn) : Option (Handlers Fn) :=
  if (irqIndex call.1).toNat < 256 then
    some (Function.update handlers ((irqIndex call.1).setWidth 8) call.2)
  else none -- outside handlers

/-- A sequence of calls of `Interrupt::Register`. -/
def registerAll (calls : List (Word × Option Fn)) : Option (Handlers Fn) :=
  calls.foldlM register fun _ => none

/-- What `isr_handler` does: the bytes that it sends to ports, and the function that it calls. -/
structure Handled (Fn : Type) where
  outportb : List (BitVec 16 × Byte)
  called : Option Fn

/-- `isr_handler`, on the struct `registers` at its argument. -/
def isrHandler (handlers : Handlers Fn) (c : State) : Option (Handled Fn) :=
  let isrNum := c.field Registers.isrNum
  let eoi : List (BitVec 16 × Byte) :=
    if 0x20#32 ≤ isrNum ∧ isrNum ≤ 0x2f#32 then
      (if 0x28#32 ≤ isrNum then [(0xA0, 0x20)] else []) ++ [(0x20, 0x20)]
    else []
  if isrNum.toNat < 256 then some ⟨eoi, handlers (isrNum.setWidth 8)⟩
  else none -- outside handlers

/-- The function that was registered last for a vector. -/
def lastRegistered (calls : List (Word × Option Fn)) (v : ℕ) : Option Fn :=
  (lastWrite (calls.map fun call => (irqIndex call.1, call.2)) (BitVec.ofNat 32 v)).join

/-- The vectors of IRQ0 to IRQ15, of the syscall and of the scheduler. -/
def handledVectors : List ℕ := (List.range 16).map (32 + ·) ++ [0x80, 0x82]

/-- An interrupt is dispatched to its handler: its gate is present, the stub to which the gate
leads reports the vector as `isr_num`, and `isr_handler` finds in the array the function that was
registered last for the vector. -/
structure Dispatched (isr : ℕ → Word) (calls : List (Word × Option Fn)) (v : ℕ) : Prop where
  present : (idtInstall isr (BitVec.ofNat 8 v)).present
  handled : ∃ handlers, registerAll calls = some handlers ∧ ∃ n stub, (n, stub) ∈ isrs ∧
    isr n = (idtInstall isr (BitVec.ofNat 8 v)).offset ∧ ∀ m callee (s : State) err,
      let c := (s.interrupt m (errorCode v err) (idtInstall isr (BitVec.ofNat 8 v)).selector
        (isr n)).atCall m callee stub
      c.field Registers.isrNum = BitVec.ofNat 32 v ∧
        ∃ handled, isrHandler handlers c = some handled ∧ handled.called = lastRegistered calls v

/-! ## The gates -/

/-- The two halves of an address make it up. -/
@[simp] theorem offset_idtGate (offset : Word) (selector : Selector) (flags : Byte) :
    (idtGate offset selector flags).offset = offset := by
  apply BitVec.eq_of_getLsbD_eq
  intro i hi
  simp only [idtGate, IdtEntry.offset, BitVec.getLsbD_append, BitVec.getLsbD_setWidth,
    BitVec.getLsbD_and, BitVec.getLsbD_ushiftRight]
  have hmask (j : ℕ) (hj : j < 16) : (0xFFFF : Word).getLsbD j = true := by
    rw [show (0xFFFF : Word) = BitVec.ofNat 32 (2 ^ 16 - 1) from rfl, BitVec.getLsbD_ofNat,
      Nat.testBit_two_pow_sub_one]
    simp only [Bool.and_eq_true, decide_eq_true_eq]
    omega
  grind

/-- The flags of `idt_install` have the present bit. -/
theorem present_idtGate (offset : Word) (selector : Selector) :
    (idtGate offset selector 0x8E).present := by
  have hflags : (0x8E &&& 0xFF : Byte).getLsbD 7 := by decide
  exact hflags

/-- The stub to which a gate leads after `idt_install`. -/
theorem idtInstall_apply {isr : ℕ → Word} {v : ℕ} (hv : v < 256) :
    idtInstall isr (BitVec.ofNat 8 v) = ((lastWrite gates v).map fun n =>
      idtGate (isr n) 0x08 0x8E).getD ⟨0, 0, 0, 0, 0⟩ := by
  have hgates : ∀ g ∈ gates, g.1 < 256 := by decide +kernel
  unfold idtInstall
  rw [writeAll_apply, lastWrite_map (f := BitVec.ofNat 8)
    (g := fun n => idtGate (isr n) 0x08 0x8E) (k := v)]
  intro g hg
  have := hgates g hg
  rw [BitVec.toNat_inj.symm, BitVec.toNat_ofNat, BitVec.toNat_ofNat, Nat.mod_eq_of_lt this,
    Nat.mod_eq_of_lt hv]

/-- The gates of the vectors that have a handler. -/
theorem lastWrite_gates : ∀ v ∈ handledVectors, lastWrite gates v =
    if v = 42 then none else if v = 43 then some 42 else some v := by
  decide +kernel

/-! ## The registered functions -/

/-- The calls of `Interrupt::Register` succeed if all their indices are in range. -/
theorem foldlM_register {handlers handlers' : Handlers Fn} {calls : List (Word × Option Fn)} :
    calls.foldlM register handlers = some handlers' ↔
      (∀ call ∈ calls, (irqIndex call.1).toNat < 256) ∧
        handlers' = writeAll handlers
          (calls.map fun call => ((irqIndex call.1).setWidth 8, call.2)) := by
  induction calls generalizing handlers with
  | nil => simp [writeAll, eq_comm]
  | cons call calls ih =>
    rw [List.foldlM_cons, List.map_cons, writeAll_cons, List.forall_mem_cons]
    by_cases h : (irqIndex call.1).toNat < 256
    · simp [register, h, ih]
    · simp [register, h]

/-- The array holds the function that was registered last. -/
theorem handlers_apply {handlers : Handlers Fn} {calls : List (Word × Option Fn)} {v : ℕ}
    (h : registerAll calls = some handlers) (hv : v < 256) :
    handlers (BitVec.ofNat 8 v) = lastRegistered calls v := by
  obtain ⟨hrange, rfl⟩ := foldlM_register.mp h
  have hindex : ∀ call ∈ calls.map fun call => (irqIndex call.1, call.2),
      call.1.setWidth 8 = BitVec.ofNat 8 v ↔ call.1 = BitVec.ofNat 32 v := by
    intro call hcall
    obtain ⟨call', hcall', rfl⟩ := List.mem_map.mp hcall
    have := hrange call' hcall'
    simp only [← BitVec.toNat_inj, BitVec.toNat_setWidth, BitVec.toNat_ofNat]
    omega
  have hlast := lastWrite_map (g := id) hindex
  rw [List.map_map] at hlast
  unfold lastRegistered
  rw [writeAll_apply]
  have heq : (calls.map fun call => ((irqIndex call.1).setWidth 8, call.2)) = calls.map
      ((fun w => (w.1.setWidth 8, id w.2)) ∘ fun call => (irqIndex call.1, call.2)) := rfl
  rw [heq, hlast]
  cases lastWrite (calls.map fun call => (irqIndex call.1, call.2)) (BitVec.ofNat 32 v) with
  | none => rfl
  | some ptr => rfl

/-! ## Dispatching -/

variable {isr : ℕ → Word} {calls : List (Word × Option Fn)} {v : ℕ}

/-- Vectors from 32 on push no error code. -/
theorem errorCode_eq_none (err : Word) (hv : 32 ≤ v) : errorCode v err = none := by
  apply if_neg
  unfold PushesErrorCode
  omega

/-- A stub without an error code reports its own number, extended by its sign. -/
theorem isrNum_eq {m : Processor} {callee : State → State} {s : State} {err offset : Word}
    {selector : Selector} {n : ℕ} {stub : List Instr} (hn : (n, stub) ∈ isrs) (hv : 32 ≤ v)
    (hn' : 32 ≤ n) : ((s.interrupt m (errorCode v err) selector offset).atCall m callee stub).field
      Registers.isrNum = (BitVec.ofNat 8 n).signExtend 32 := by
  rw [errorCode_eq_none err hv, ← errorCode_eq_none err hn']
  exact (handed_isr hn).holdsRegisters.2

/-- The handler that `isr_handler` calls for a number in range. -/
theorem isrHandler_called {handlers : Handlers Fn} {c : State}
    (h : (c.field Registers.isrNum).toNat < 256) : ∃ handled, isrHandler handlers c = some handled ∧
      handled.called = handlers ((c.field Registers.isrNum).setWidth 8) := by
  unfold isrHandler
  simp only [if_pos h, Option.some.injEq, exists_eq_left']

/-- The IRQs with tables that agree, and the number that their stubs push. -/
theorem handledVectors_good : ∀ v ∈ handledVectors, v ∉ [42, 43, 0x80, 0x82] → 32 ≤ v ∧ v < 48 ∧
    lastWrite gates v = some v ∧ (BitVec.ofNat 8 v).signExtend 32 = BitVec.ofNat 32 v := by
  decide +kernel

/-- The vectors that are left after the faulty ones dispatch to the functions that were registered
for them. -/
theorem dispatched_of_good (hv : v ∈ handledVectors) (hgood : v ∉ [42, 43, 0x80, 0x82])
    (hcalls : ∀ call ∈ calls, (irqIndex call.1).toNat < 256) : Dispatched isr calls v := by
  obtain ⟨hlo, hhi, hgate, hnum⟩ := handledVectors_good v hv hgood
  have hidt : idtInstall isr (BitVec.ofNat 8 v) = idtGate (isr v) 0x08 0x8E := by
    rw [idtInstall_apply (by omega), hgate]
    rfl
  obtain ⟨stub, hstub⟩ : ∃ stub, (v, stub) ∈ isrs := by
    rw [isrs_eq]
    exact ⟨_, List.mem_map_of_mem (by simp [stubVectors, hhi])⟩
  have hpresent : (idtInstall isr (BitVec.ofNat 8 v)).present := by
    rw [hidt]
    exact present_idtGate _ _
  have haddr : isr v = (idtInstall isr (BitVec.ofNat 8 v)).offset := by rw [hidt, offset_idtGate]
  refine ⟨hpresent, _, foldlM_register.mpr ⟨hcalls, rfl⟩, v, stub, hstub, haddr, ?_⟩
  intro m callee s err c
  have hfield : c.field Registers.isrNum = BitVec.ofNat 32 v := by
    rw [← hnum]
    exact isrNum_eq hstub hlo hlo
  have hrange : (c.field Registers.isrNum).toNat < 256 := by
    rw [hfield, BitVec.toNat_ofNat]
    omega
  obtain ⟨handled, hhandled, hcalled⟩ := isrHandler_called hrange
  refine ⟨hfield, handled, hhandled, ?_⟩
  have hindex : (BitVec.ofNat 32 v).setWidth 8 = BitVec.ofNat 8 v := by
    simp
  rw [hcalled, hfield, hindex]
  exact handlers_apply (foldlM_register.mpr ⟨hcalls, rfl⟩) (by omega)

/-- A vector whose gate leads to a stub that pushes another number is not dispatched. -/
theorem not_dispatched_of_gate {n : ℕ}
    (hisr : ∀ p ∈ stubVectors, ∀ q ∈ stubVectors, isr p = isr q → p = q) (hv : 32 ≤ v ∧ v < 256)
    (hgate : lastWrite gates v = some n) (hn : n ∈ stubVectors) (hn' : 32 ≤ n)
    (hnum : (BitVec.ofNat 8 n).signExtend 32 ≠ BitVec.ofNat 32 v) : ¬ Dispatched isr calls v := by
  intro h
  obtain ⟨handlers, -, p, stub, hstub, haddr, hfields⟩ := h.handled
  have hp : p ∈ stubVectors := by
    rw [isrs_eq, List.mem_map] at hstub
    obtain ⟨q, hq, heq⟩ := hstub
    rw [Prod.mk.injEq] at heq
    exact heq.1 ▸ hq
  rw [idtInstall_apply hv.2, hgate, Option.map_some, Option.getD_some, offset_idtGate] at haddr
  obtain rfl := hisr p hp n hn haddr
  obtain ⟨hfield, -⟩ := hfields zeroExtending clobber interrupted 0
  rw [isrNum_eq hstub hv.1 hn'] at hfield
  exact hnum hfield

/-- The vectors that are not dispatched: one has no gate, and the stubs of the others push another
number. -/
theorem not_dispatched (hisr : ∀ p ∈ stubVectors, ∀ q ∈ stubVectors, isr p = isr q → p = q)
    (hbad : v ∈ [42, 43, 0x80, 0x82]) : ¬ Dispatched isr calls v := by
  simp only [List.mem_cons, List.not_mem_nil, or_false] at hbad
  rcases hbad with rfl | rfl | rfl | rfl
  · intro h
    have hpresent := h.present
    rw [idtInstall_apply (by decide), lastWrite_gates 42 (by decide), if_pos rfl, Option.map_none,
      Option.getD_none] at hpresent
    exact absurd hpresent (by decide)
  · exact not_dispatched_of_gate hisr (by decide) (lastWrite_gates 43 (by decide)) (by decide)
      (by decide) (by decide)
  · exact not_dispatched_of_gate hisr (by decide) (lastWrite_gates 0x80 (by decide)) (by decide)
      (by decide) (by decide)
  · exact not_dispatched_of_gate hisr (by decide) (lastWrite_gates 0x82 (by decide)) (by decide)
      (by decide) (by decide)

/-- **Interrupts are dispatched to the handler registered for them**, if the vector is not one of
the four that the tables do not agree on. -/
theorem dispatched_iff (isr : ℕ → Word)
    (hisr : ∀ p ∈ stubVectors, ∀ q ∈ stubVectors, isr p = isr q → p = q)
    (calls : List (Word × Option Fn)) (hv : v ∈ handledVectors) : Dispatched isr calls v ↔
      (∀ call ∈ calls, (irqIndex call.1).toNat < 256) ∧ v ∉ [42, 43, 0x80, 0x82] := by
  constructor
  · intro h
    obtain ⟨handlers, hhandlers, -⟩ := h.handled
    exact ⟨(foldlM_register.mp hhandlers).1, fun hbad => not_dispatched hisr hbad h⟩
  · rintro ⟨hcalls, hbad⟩
    exact dispatched_of_good hv hbad hcalls

/-- Stubs of sixteen bytes, one after the other. -/
def stubAddress (n : ℕ) : Word := 0xC0100000 + BitVec.ofNat 32 (16 * n)

/-- Different vectors have different stubs. -/
theorem stubAddress_injective : ∀ p ∈ stubVectors, ∀ q ∈ stubVectors,
    stubAddress p = stubAddress q → p = q := by
  decide +kernel

/-- The keyboard, registered after the timer. -/
theorem dispatched_iff_keyboard : Dispatched stubAddress [(0, some "timer_irq"),
    (1, some "keyboard_irq")] 33 :=
  (dispatched_iff stubAddress stubAddress_injective _ (by decide)).mpr
    ⟨by decide, by decide⟩

/-- **IRQ10, IRQ11, the syscall and the scheduler are not dispatched**, to whatever is registered
for them. -/
theorem four_not_dispatched :
    ¬ Dispatched stubAddress [(10, some "irq10")] 42 ∧
      ¬ Dispatched stubAddress [(11, some "irq11")] 43 ∧
      ¬ Dispatched stubAddress [(0x60, some "syscall")] 0x80 ∧
      ¬ Dispatched stubAddress [(0x62, some "schedule")] 0x82 :=
  ⟨not_dispatched stubAddress_injective (by decide),
    not_dispatched stubAddress_injective (by decide),
    not_dispatched stubAddress_injective (by decide),
    not_dispatched stubAddress_injective (by decide)⟩

end

end Muk
