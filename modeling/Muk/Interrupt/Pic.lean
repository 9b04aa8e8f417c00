import Muk.Interrupt.Idt
import Muk.Lib.Pic8259
import Muk.Lib.Run

/-!
# The interrupt controllers

`idt_install` initialises the two controllers, and `isr_handler` signals the end of an interrupt
for the number that the stub reports. From then on the devices are served in the order of their
priorities, each request once, until the first interrupt of IRQ10: its gate is not set, so the
fault that takes its place reports another number, the end of the interrupt is never signalled,
and only IRQ0 and IRQ1 are served any more.
-/

namespace Muk

namespace PicPair

/-- `outportb` to the ports of the controllers. -/
def outportb (s : PicPair) (write : BitVec 16 × Byte) : PicPair :=
  if write.1 = 0x20 then { s with master := s.master.command write.2 }
  else if write.1 = 0x21 then { s with master := s.master.data write.2 }
  else if write.1 = 0xA0 then { s with slave := s.slave.command write.2 }
  else if write.1 = 0xA1 then { s with slave := s.slave.data write.2 }
  else s

/-- The calls of `outportb` in `idt_install`. -/
def installWrites : List (BitVec 16 × Byte) :=
  [(0x20, 0x11), (0xA0, 0x11), (0x21, 0x20), (0xA1, 0x28), (0x21, 0x04), (0xA1, 0x02),
    (0x21, 0x01), (0xA1, 0x01), (0x21, 0x00), (0xA1, 0x00)]

/-- The controllers after `idt_install`. -/
def install (s : PicPair) : PicPair := installWrites.foldl outportb s

end PicPair

/-- The bytes that `isr_handler` sends to ports for a number. -/
def eoiWrites (isrNum : Word) : List (BitVec 16 × Byte) :=
  if 0x20#32 ≤ isrNum ∧ isrNum ≤ 0x2f#32 then
    (if 0x28#32 ≤ isrNum then [(0xA0, 0x20)] else []) ++ [(0x20, 0x20)]
  else []

/-- The number that is reported for an interrupt: that of the stub to which its gate leads, and
that of the fault on a gate that is not present. -/
def reportedNum (v : Byte) : Word :=
  match lastWrite gates v.toNat with
  | some n => (BitVec.ofNat 8 n).signExtend 32
  | none => 11

/-- A device raises its line, or the processor takes an interrupt. -/
inductive IrqEvent where
  | raise (irq : Fin 16)
  | interrupt

/-- An event. An interrupt is served up to the end of `isr_handler`'s calls of `outportb`, with
interrupts off; its vector and the number that is reported for it are put out. -/
def PicPair.event (s : PicPair) : IrqEvent → PicPair × List (Byte × Word)
  | .raise irq => (s.raise irq, [])
  | .interrupt =>
    match s.interrupt with
    | none => (s, [])
    | some (v, s) => ((eoiWrites (reportedNum v)).foldl outportb s, [(v, reportedNum v)])

/-! ## What is served -/

/-- The lines of the master and of the slave, as IRQs. -/
def masterLine (i : Fin 8) : Fin 16 := i.castLE (by decide)

def slaveLine (j : Fin 8) : Fin 16 := j.natAdd 8

/-- The requests to be served, and whether an interrupt of IRQ10 was taken. -/
structure IrqLines where
  pending : Fin 16 → Bool
  stuck : Bool

namespace IrqLines

/-- The lines that are served, in the order of their priorities. -/
def order (stuck : Bool) : List (Fin 16) :=
  if stuck then [0, 1] else [0, 1, 8, 9, 10, 11, 12, 13, 14, 15, 3, 4, 5, 6, 7]

/-- The number that is reported for an IRQ. -/
def number (irq : Fin 16) : Word :=
  if irq = 10 then 11 else if irq = 11 then 42 else 32 + BitVec.ofNat 32 irq

/-- An event: the first request in the order is served. -/
def event (t : IrqLines) : IrqEvent → IrqLines × List (Byte × Word)
  | .raise irq => ({ t with pending := Function.update t.pending irq true }, [])
  | .interrupt =>
    match (order t.stuck).find? t.pending with
    | none => (t, [])
    | some irq => (⟨Function.update t.pending irq false, t.stuck || decide (irq = 10)⟩,
        [(32 + BitVec.ofNat 8 irq, number irq)])

end IrqLines

/-- The number that the stub of an IRQ's vector reports. -/
theorem reportedNum_eq : ∀ irq : Fin 16, irq ≠ 2 →
    reportedNum (32 + BitVec.ofNat 8 irq) = IrqLines.number irq := by
  decide +kernel

/-- `isr_handler` sends exactly the bytes that end the interrupt, which depend on its number
alone. -/
theorem isrHandler_outportb {Fn : Type} {handlers : Handlers Fn} {c : X86.State}
    {handled : Handled Fn} (h : isrHandler handlers c = some handled) :
    handled.outportb = eoiWrites (c.field Registers.isrNum) := by
  by_cases hrange : (c.field Registers.isrNum).toNat < 256
  · simp only [isrHandler, if_pos hrange, Option.some.injEq] at h
    rw [← h]
    rfl
  · simp only [isrHandler, if_neg hrange, reduceCtorEq] at h

/-- A stub reports the number of the vectors that lead to it. -/
theorem field_isrNum_eq_reportedNum {irq : Fin 16} (htwo : irq ≠ 2) (hten : irq ≠ 10)
    (m : X86.Processor) (callee : X86.State → X86.State) (s : X86.State) (err offset : Word)
    (selector : X86.Selector) : ∃ n stub, lastWrite gates (32 + irq) = some n ∧ (n, stub) ∈ isrs ∧
      ((s.interrupt m (errorCode (32 + irq) err) selector offset).atCall m callee stub).field
        Registers.isrNum = reportedNum (32 + BitVec.ofNat 8 irq) := by
  have htable : ∀ irq : Fin 16, irq ≠ 2 → irq ≠ 10 → ∃ n ∈ stubVectors, 32 ≤ n ∧
      lastWrite gates (32 + irq) = some n ∧
        reportedNum (32 + BitVec.ofNat 8 irq) = (BitVec.ofNat 8 n).signExtend 32 := by
    decide +kernel
  obtain ⟨n, hn, hlo, hgate, hnum⟩ := htable irq htwo hten
  obtain ⟨stub, hstub⟩ : ∃ stub, (n, stub) ∈ isrs := by
    rw [isrs_eq]
    exact ⟨_, List.mem_map_of_mem hn⟩
  refine ⟨n, stub, hgate, hstub, ?_⟩
  rw [hnum, isrNum_eq hstub (by omega) hlo]

/-! ## The controllers follow the requests -/

variable {s : PicPair} {t : IrqLines} {e : IrqEvent}

/-- A controller as `idt_install` leaves it. -/
structure Installed (p : Pic8259) (base cascade : Byte) : Prop where
  base : p.base = base
  cascade : p.cascade = cascade
  mask : p.mask = fun _ => false
  autoEoi : p.autoEoi = false
  expects : p.expects = .mask

/-- The lines in service between two interrupts: none, or line 2 for ever. -/
def heldLines (stuck : Bool) : Fin 8 → Bool :=
  if stuck then Function.update (fun _ => false) cascadeLine true else fun _ => false

/-- The controllers hold the requests to be served. -/
structure Tracks (s : PicPair) (t : IrqLines) : Prop where
  master : Installed s.master 0x20 0x04
  slave : Installed s.slave 0x28 0x02
  masterService : s.master.inService = heldLines t.stuck
  slaveService : s.slave.inService = heldLines t.stuck
  masterRequests : ∀ i ≠ 2, s.master.requests i = t.pending (masterLine i)
  slaveRequests : ∀ j, s.slave.requests j = t.pending (slaveLine j)

/-- After `idt_install` both controllers are set up, with nothing pending. -/
theorem Tracks.install (s : PicPair) : Tracks s.install ⟨fun _ => false, false⟩ where
  master := ⟨rfl, rfl, funext fun _ => BitVec.getLsbD_zero, rfl, rfl⟩
  slave := ⟨rfl, rfl, funext fun _ => BitVec.getLsbD_zero, rfl, rfl⟩
  masterService := rfl
  slaveService := rfl
  masterRequests _ _ := rfl
  slaveRequests _ := rfl

/-- Each request is one of a line of the master or of the slave. -/
theorem masterLine_or_slaveLine (irq : Fin 16) :
    (irq.val < 8 ∧ irq = masterLine (Fin.ofNat 8 irq)) ∨
      (¬ irq.val < 8 ∧ irq = slaveLine (Fin.ofNat 8 irq)) := by
  revert irq
  decide

/-- Different lines of the master are different requests. -/
theorem masterLine_injective : Function.Injective masterLine := by
  decide

/-- Different lines of the slave are different requests. -/
theorem slaveLine_injective : Function.Injective slaveLine := by
  decide

/-- The master and the slave share no request. -/
theorem masterLine_ne_slaveLine : ∀ i j, masterLine i ≠ slaveLine j := by
  decide

/-- A line that a device raises is pending on the controller that has it. -/
theorem Tracks.raise (h : Tracks s t) (irq : Fin 16) :
    Tracks (s.raise irq) { t with pending := Function.update t.pending irq true } := by
  rcases masterLine_or_slaveLine irq with ⟨hlt, hline⟩ | ⟨hge, hline⟩
  · rw [PicPair.raise, if_pos hlt]
    generalize Fin.ofNat 8 irq.val = i at hline
    subst hline
    refine ⟨⟨h.master.1, h.master.2, h.master.3, h.master.4, h.master.5⟩, h.slave, h.masterService,
      h.slaveService, fun k hk => ?_, fun j => ?_⟩
    · by_cases hki : k = i
      · subst hki
        simp only [Function.update_self]
      · simp only [Function.update_of_ne hki,
          Function.update_of_ne (masterLine_injective.ne hki), h.masterRequests k hk]
    · exact (h.slaveRequests j).trans
        (Function.update_of_ne (masterLine_ne_slaveLine i j).symm _ _).symm
  · rw [PicPair.raise, if_neg hge]
    generalize Fin.ofNat 8 irq.val = i at hline
    subst hline
    refine ⟨h.master, ⟨h.slave.1, h.slave.2, h.slave.3, h.slave.4, h.slave.5⟩, h.masterService,
      h.slaveService, fun k hk => ?_, fun j => ?_⟩
    · exact (h.masterRequests k hk).trans
        (Function.update_of_ne (masterLine_ne_slaveLine k i) _ _).symm
    · by_cases hji : j = i
      · subst hji
        simp only [Function.update_self]
      · simp only [Function.update_of_ne hji,
          Function.update_of_ne (slaveLine_injective.ne hji), h.slaveRequests j]

/-- The request of the highest priority, as the controllers find it with nothing in service. -/
theorem find_order (f : Fin 16 → Bool) (b : Bool)
    (hb : b = ((List.finRange 8).find? (f ∘ slaveLine)).isSome) :
    (∃ i ≠ 2, (List.finRange 8).find? (Function.update (f ∘ masterLine) 2 b) = some i ∧
      (IrqLines.order false).find? f = some (masterLine i)) ∨
    (∃ j, (List.finRange 8).find? (f ∘ slaveLine) = some j ∧
      (List.finRange 8).find? (Function.update (f ∘ masterLine) 2 b) = some 2 ∧
      (IrqLines.order false).find? f = some (slaveLine j)) ∨
    ((List.finRange 8).find? (Function.update (f ∘ masterLine) 2 b) = none ∧
      (IrqLines.order false).find? f = none) := by
  have hlines : List.finRange 8 = [0, 1] ++ (2 :: [3, 4, 5, 6, 7]) := by decide
  have horder : IrqLines.order false = [0, 1].map masterLine ++
      ((List.finRange 8).map slaveLine ++ [3, 4, 5, 6, 7].map masterLine) := by decide
  have hmaster : (List.finRange 8).find? (Function.update (f ∘ masterLine) 2 b) =
      ([0, 1].find? (f ∘ masterLine)).or
        (if b then some 2 else [3, 4, 5, 6, 7].find? (f ∘ masterLine)) := by
    have hfirst : [0, 1].find? (Function.update (f ∘ masterLine) 2 b) =
        [0, 1].find? (f ∘ masterLine) := rfl
    rw [hlines, List.find?_append, hfirst]
    cases b <;> rfl
  have hne : ∀ l : List (Fin 8), 2 ∉ l → ∀ i, l.find? (f ∘ masterLine) = some i → i ≠ 2 := by
    rintro l hl i hi rfl
    exact hl (List.mem_of_find?_eq_some hi)
  rw [hmaster, horder, List.find?_append, List.find?_append, List.find?_map, List.find?_map,
    List.find?_map]
  cases hzero : [0, 1].find? (f ∘ masterLine) with
  | some i => exact .inl ⟨i, hne _ (by decide) i hzero, rfl, rfl⟩
  | none =>
    cases hslave : (List.finRange 8).find? (f ∘ slaveLine) with
    | some j =>
      rw [hslave] at hb
      subst hb
      exact .inr (.inl ⟨j, rfl, rfl, rfl⟩)
    | none =>
      rw [hslave] at hb
      subst hb
      cases hthree : [3, 4, 5, 6, 7].find? (f ∘ masterLine) with
      | some i => exact .inl ⟨i, hne _ (by decide) i hthree, rfl, rfl⟩
      | none => exact .inr (.inr ⟨rfl, rfl⟩)

/-- The master with the request of the slave. -/
theorem Tracks.cascaded_requests (h : Tracks s t) : s.cascaded.requests =
    Function.update (t.pending ∘ masterLine) 2 s.slave.next.isSome := by
  funext i
  by_cases hi : i = 2
  · subst hi
    rw [Function.update_self]
    exact @Function.update_self (Fin 8) (fun _ => Bool) _ 2 s.slave.next.isSome s.master.requests
  · rw [Function.update_of_ne hi, Function.comp_apply, ← h.masterRequests i hi]
    exact Function.update_of_ne hi s.slave.next.isSome s.master.requests

/-- What `isr_handler` does for a line of the master. -/
theorem Tracks.master_served (h : Tracks s t) {i : Fin 8} (hi : i ≠ 2)
    (hheld : t.stuck = true → i < 2) :
    (eoiWrites (reportedNum (s.master.vector i))).foldl PicPair.outportb
        { s with master := s.master.acknowledge i } =
      { s with master := { s.master with
          requests := Function.update s.master.requests i false } } ∧
    s.master.vector i = 32 + BitVec.ofNat 8 (masterLine i) := by
  have hvector : ∀ i : Fin 8, (0x20 : Byte) ||| BitVec.ofNat 8 i =
      32 + BitVec.ofNat 8 (masterLine i) := by decide
  have hwrites : ∀ i : Fin 8, i ≠ 2 → eoiWrites (reportedNum (32 + BitVec.ofNat 8 (masterLine i))) =
      [(0x20, 0x20)] := by decide +kernel
  have hvec : s.master.vector i = 32 + BitVec.ofNat 8 (masterLine i) := by
    rw [Pic8259.vector, h.master.base, hvector]
  refine ⟨?_, hvec⟩
  rw [hvec, hwrites i hi, List.foldl_cons, List.foldl_nil]
  have hcommand : (s.master.acknowledge i).endOfInterrupt = { s.master with
      requests := Function.update s.master.requests i false } := by
    have hservice := h.masterService
    cases hstuck : t.stuck with
    | true =>
      replace hservice : s.master.inService = Function.update (fun _ => false) 2 true := by
        rw [hservice, hstuck]
        rfl
      rw [Pic8259.endOfInterrupt_nested (hheld hstuck)
        (by rw [Pic8259.acknowledge, hservice, h.master.autoEoi]; rfl), ← hservice]
      rfl
    | false =>
      replace hservice : s.master.inService = fun _ => false := by
        rw [hservice, hstuck]
        rfl
      rw [Pic8259.endOfInterrupt_only
        (by rw [Pic8259.acknowledge, hservice, h.master.autoEoi]; rfl), ← hservice]
      rfl
  exact congrArg (fun p => (⟨p, s.slave⟩ : PicPair)) hcommand

/-- What `isr_handler` does for a line of the slave. -/
theorem Tracks.slave_served (h : Tracks s t) (hfree : t.stuck = false) (j : Fin 8) :
    (eoiWrites (reportedNum (s.slave.vector j))).foldl PicPair.outportb
        ⟨s.cascaded.acknowledge 2, s.slave.acknowledge j⟩ =
      ⟨{ s.cascaded.acknowledge 2 with inService := heldLines (decide (j = 2)) },
        { s.slave.acknowledge j with inService := heldLines (decide (j = 2)) }⟩ ∧
    s.slave.vector j = 32 + BitVec.ofNat 8 (slaveLine j) := by
  have hvector : ∀ j : Fin 8, (0x28 : Byte) ||| BitVec.ofNat 8 j =
      32 + BitVec.ofNat 8 (slaveLine j) := by decide
  have hwrites : ∀ j : Fin 8, eoiWrites (reportedNum (32 + BitVec.ofNat 8 (slaveLine j))) =
      if j = 2 then [] else [(0xA0, 0x20), (0x20, 0x20)] := by decide +kernel
  have hvec : s.slave.vector j = 32 + BitVec.ofNat 8 (slaveLine j) := by
    rw [Pic8259.vector, h.slave.base, hvector]
  refine ⟨?_, hvec⟩
  have hmaster :
      (s.cascaded.acknowledge 2).inService = Function.update (fun _ => false) 2 true := by
    have hservice : s.cascaded.inService = fun _ => false := by
      rw [PicPair.cascaded, h.masterService, hfree]
      rfl
    rw [Pic8259.acknowledge, hservice, PicPair.cascaded, h.master.autoEoi]
    rfl
  have hslave : (s.slave.acknowledge j).inService = Function.update (fun _ => false) j true := by
    have hservice : s.slave.inService = fun _ => false := by
      rw [h.slaveService, hfree]
      rfl
    rw [Pic8259.acknowledge, hservice, h.slave.autoEoi]
    rfl
  rw [hvec, hwrites]
  by_cases hj : j = 2
  · have hsame {p : Pic8259} {lines : Fin 8 → Bool} (hp : p.inService = lines) :
        p = { p with inService := lines } := by rw [← hp]
    rw [if_pos hj, decide_eq_true hj, List.foldl_nil]
    rw [hj] at hslave ⊢
    exact congrArg₂ PicPair.mk (hsame hmaster) (hsame hslave)
  · rw [if_neg hj, decide_eq_false hj, List.foldl_cons, List.foldl_cons, List.foldl_nil]
    exact congrArg₂ PicPair.mk (Pic8259.endOfInterrupt_only hmaster)
      (Pic8259.endOfInterrupt_only hslave)

/-- The requests after one of the master was served. -/
theorem Tracks.after_master (h : Tracks s t) {i : Fin 8} (hi : i ≠ 2) :
    Tracks { s with master := { s.master with
        requests := Function.update s.master.requests i false } }
      ⟨Function.update t.pending (masterLine i) false,
        t.stuck || decide (masterLine i = 10)⟩ := by
  have hten : ∀ i : Fin 8, decide (masterLine i = 10) = false := by decide
  rw [hten, Bool.or_false]
  refine ⟨⟨h.master.1, h.master.2, h.master.3, h.master.4, h.master.5⟩, h.slave, h.masterService,
    h.slaveService, fun k hk => ?_, fun j => ?_⟩
  · by_cases hki : k = i
    · subst hki
      simp only [Function.update_self]
    · simp only [Function.update_of_ne hki,
        Function.update_of_ne (masterLine_injective.ne hki), h.masterRequests k hk]
  · exact (h.slaveRequests j).trans
      (Function.update_of_ne (masterLine_ne_slaveLine i j).symm _ _).symm

/-- The requests after one of the slave was served. -/
theorem Tracks.after_slave (h : Tracks s t) (hfree : t.stuck = false) (j : Fin 8) :
    Tracks ⟨{ s.cascaded.acknowledge 2 with inService := heldLines (decide (j = 2)) },
        { s.slave.acknowledge j with inService := heldLines (decide (j = 2)) }⟩
      ⟨Function.update t.pending (slaveLine j) false,
        t.stuck || decide (slaveLine j = 10)⟩ := by
  have hten : ∀ j : Fin 8, decide (slaveLine j = 10) = decide (j = 2) := by decide
  rw [hten, hfree, Bool.false_or]
  refine ⟨⟨h.master.1, h.master.2, h.master.3, h.master.4, h.master.5⟩,
    ⟨h.slave.1, h.slave.2, h.slave.3, h.slave.4, h.slave.5⟩, rfl, rfl, fun k hk => ?_, fun k => ?_⟩
  · have hrequest : (s.cascaded.acknowledge 2).requests k = s.master.requests k :=
      (Function.update_of_ne hk _ _).trans (Function.update_of_ne hk _ _)
    exact hrequest.trans ((h.masterRequests k hk).trans
      (Function.update_of_ne (masterLine_ne_slaveLine k j) _ _).symm)
  · by_cases hkj : k = j
    · subst hkj
      simp only [Pic8259.acknowledge, Function.update_self]
    · simp only [Pic8259.acknowledge, Function.update_of_ne hkj,
        Function.update_of_ne (slaveLine_injective.ne hkj), h.slaveRequests k]

/-- The controllers and the requests take the same interrupt. -/
def Agrees (s : PicPair) (t : IrqLines) : Prop :=
  Tracks (s.event .interrupt).1 (t.event .interrupt).1 ∧
    (s.event .interrupt).2 = (t.event .interrupt).2

/-- With a line of the master first, both take its interrupt. -/
theorem Tracks.agrees_master (h : Tracks s t) {i : Fin 8} (hi : i ≠ 2)
    (hheld : t.stuck = true → i < 2) (hnext : s.cascaded.next = some i)
    (hfind : (IrqLines.order t.stuck).find? t.pending = some (masterLine i)) : Agrees s t := by
  have htwo : ∀ i : Fin 8, i ≠ 2 → masterLine i ≠ 2 := by decide
  obtain ⟨hserved, hvector⟩ := h.master_served hi hheld
  have hinterrupt : s.interrupt =
      some (s.master.vector i, { s with master := s.master.acknowledge i }) := by
    have hown : ∀ i : Fin 8, i ≠ 2 → (0x04 : Byte).getLsbD i = false := by decide
    rw [PicPair.interrupt, hnext]
    exact if_neg (by rw [h.master.cascade, hown i hi]; exact Bool.false_ne_true)
  have hevent : s.event .interrupt = ({ s with master := { s.master with
      requests := Function.update s.master.requests i false } },
      [(32 + BitVec.ofNat 8 (masterLine i), IrqLines.number (masterLine i))]) := by
    simp only [PicPair.event, hinterrupt, hserved]
    rw [hvector, reportedNum_eq _ (htwo i hi)]
  simp only [Agrees, hevent, IrqLines.event, hfind]
  exact ⟨h.after_master hi, trivial⟩

/-- With a line of the slave first, both take its interrupt. -/
theorem Tracks.agrees_slave (h : Tracks s t) (hfree : t.stuck = false) {j : Fin 8}
    (hnext : s.cascaded.next = some 2) (hslave : s.slave.next = some j)
    (hfind : (IrqLines.order t.stuck).find? t.pending = some (slaveLine j)) : Agrees s t := by
  have htwo : ∀ j : Fin 8, slaveLine j ≠ 2 := by decide
  obtain ⟨hserved, hvector⟩ := h.slave_served hfree j
  have hinterrupt : s.interrupt =
      some (s.slave.vector j, ⟨s.cascaded.acknowledge 2, s.slave.acknowledge j⟩) := by
    have hbit : s.master.cascade.getLsbD (2 : Fin 8) = true := by
      rw [h.master.cascade]
      rfl
    have hnumber : s.slave.cascade &&& 7 = BitVec.ofNat 8 (2 : Fin 8) := by
      rw [h.slave.cascade]
      rfl
    rw [PicPair.interrupt, hnext, hslave]
    exact (if_pos hbit).trans (if_pos ⟨rfl, hnumber⟩)
  have hevent : s.event .interrupt =
      (⟨{ s.cascaded.acknowledge 2 with inService := heldLines (decide (j = 2)) },
        { s.slave.acknowledge j with inService := heldLines (decide (j = 2)) }⟩,
      [(32 + BitVec.ofNat 8 (slaveLine j), IrqLines.number (slaveLine j))]) := by
    simp only [PicPair.event, hinterrupt, hserved]
    rw [hvector, reportedNum_eq _ (htwo j)]
  simp only [Agrees, hevent, IrqLines.event, hfind]
  exact ⟨h.after_slave hfree j, trivial⟩

/-- With nothing to serve, both take none. -/
theorem Tracks.agrees_none (h : Tracks s t) (hnext : s.cascaded.next = none)
    (hfind : (IrqLines.order t.stuck).find? t.pending = none) : Agrees s t := by
  have hevent : s.event .interrupt = (s, []) := by
    have hinterrupt : s.interrupt = none := by rw [PicPair.interrupt, hnext]
    simp only [PicPair.event, hinterrupt]
  simp only [Agrees, hevent, IrqLines.event, hfind]
  exact ⟨h, trivial⟩

/-- With nothing in service the first request of all is served. -/
theorem Tracks.agrees_free (h : Tracks s t) (hfree : t.stuck = false) : Agrees s t := by
  have hslave : s.slave.next = (List.finRange 8).find? (t.pending ∘ slaveLine) := by
    rw [Pic8259.next_free h.slave.mask (by rw [h.slaveService, hfree]; rfl)]
    exact congrArg (fun p => (List.finRange 8).find? p) (funext h.slaveRequests)
  have hmaster : s.cascaded.next = (List.finRange 8).find?
      (Function.update (t.pending ∘ masterLine) 2 s.slave.next.isSome) := by
    have hservice : s.cascaded.inService = fun _ => false := by
      rw [PicPair.cascaded, h.masterService, hfree]
      rfl
    rw [Pic8259.next_free (p := s.cascaded) h.master.mask hservice, h.cascaded_requests]
  have horder := find_order t.pending s.slave.next.isSome (by rw [hslave])
  rw [← hmaster, ← hslave, ← hfree] at horder
  rcases horder with ⟨i, hi, hnext, hfind⟩ | ⟨j, hj, hnext, hfind⟩ | ⟨hnext, hfind⟩
  · exact h.agrees_master hi (fun hstuck => by rw [hfree] at hstuck; cases hstuck) hnext hfind
  · exact h.agrees_slave hfree hnext hj hfind
  · exact h.agrees_none hnext hfind

/-- With line 2 in service for ever, IRQ0 and IRQ1 are served only. -/
theorem Tracks.agrees_stuck (h : Tracks s t) (hstuck : t.stuck = true) : Agrees s t := by
  have hservice : s.cascaded.inService = Function.update (fun _ => false) 2 true := by
    rw [PicPair.cascaded, h.masterService, hstuck]
    rfl
  have hnext : s.cascaded.next = [0, 1].find? (t.pending ∘ masterLine) := by
    rw [Pic8259.next_held (p := s.cascaded) h.master.mask hservice, h.cascaded_requests]
    have hlines : List.finRange 8 = [0, 1] ++ [2, 3, 4, 5, 6, 7] := by decide
    have hrest : [2, 3, 4, 5, 6, 7].find? (fun i : Fin 8 => Function.update
        (t.pending ∘ masterLine) 2 s.slave.next.isSome i && decide (i < 2)) = none := by
      rw [List.find?_eq_none]
      intro i hi
      have hge : ∀ i ∈ [2, 3, 4, 5, 6, 7], decide ((i : Fin 8) < 2) = false := by decide
      rw [hge i hi, Bool.and_false]
      exact Bool.false_ne_true
    rw [hlines, List.find?_append, hrest, Option.or_none]
    simp only [List.find?_cons, List.find?_nil]
    have htwo : ∀ i : Fin 8, i < 2 → Function.update (t.pending ∘ masterLine) 2
        s.slave.next.isSome i = (t.pending ∘ masterLine) i :=
      fun i hi => Function.update_of_ne hi.ne _ _
    rw [htwo 0 (by decide), htwo 1 (by decide)]
    simp
  have hfind : (IrqLines.order t.stuck).find? t.pending =
      ([0, 1].find? (t.pending ∘ masterLine)).map masterLine := by
    have horder : IrqLines.order true = [0, 1].map masterLine := by decide
    rw [hstuck, horder, List.find?_map]
  cases hfirst : [0, 1].find? (t.pending ∘ masterLine) with
  | none =>
    rw [hfirst] at hnext hfind
    exact h.agrees_none hnext hfind
  | some i =>
    rw [hfirst] at hnext hfind
    have hsmall : ∀ i ∈ [0, 1], i ≠ 2 ∧ (i : Fin 8) < 2 := by decide
    obtain ⟨hi, hlt⟩ := hsmall i (List.mem_of_find?_eq_some hfirst)
    exact h.agrees_master hi (fun _ => hlt) hnext hfind

/-- The controllers and the requests go on together, with the same output. -/
theorem Tracks.event (h : Tracks s t) (e : IrqEvent) :
    Tracks (s.event e).1 (t.event e).1 ∧ (s.event e).2 = (t.event e).2 := by
  cases e with
  | raise irq => exact ⟨h.raise irq, rfl⟩
  | interrupt =>
    cases hstuck : t.stuck with
    | true => exact h.agrees_stuck hstuck
    | false => exact h.agrees_free hstuck

/-- **Each request is served once, in the order of the priorities,** with the number of its
handler but for IRQ10 and IRQ11, up to the first interrupt of IRQ10. From then on only IRQ0 and
IRQ1 are served. This holds in every run of requests and interrupts, in whatever state the
controllers were before `idt_install`. -/
theorem interrupts_served (s : PicPair) (events : List IrqEvent) :
    (runOutput PicPair.event s.install events).2 =
      (runOutput IrqLines.event ⟨fun _ => false, false⟩ events).2 := by
  have h := Tracks.install s
  generalize s.install = s, (⟨fun _ => false, false⟩ : IrqLines) = t at h
  induction events generalizing s t with
  | nil => rfl
  | cons e events ih =>
    obtain ⟨hnext, hout⟩ := h.event e
    rw [runOutput_cons, runOutput_cons, hout, ih _ _ hnext]

end Muk
