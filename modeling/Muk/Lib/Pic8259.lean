import Muk.Lib.ByteMemory
import Mathlib.Logic.Function.Basic
import Mathlib.Data.Fintype.Basic

/-!
# Two cascaded interrupt controllers

An 8259 holds the requests of eight lines, those of them that are in service, and a mask. It asks
for an interrupt when a request has a higher priority than all lines in service, line 0 being the
highest one, and a line stays in service until the end of its interrupt is signalled. The slave
asks through line 2 of the master, and gives the vector if the two were told so. Rotating
priorities and the special modes are left out.
-/

namespace Muk

/-- The word that a controller expects at its data port. -/
inductive PicExpects where
  | mask
  | icw2
  | icw3
  | icw4
  deriving DecidableEq

/-- An 8259. The byte of ICW3 tells a master which of its lines have slaves, and a slave its
number. -/
structure Pic8259 where
  base : Byte
  cascade : Byte
  requests : Fin 8 → Bool
  inService : Fin 8 → Bool
  mask : Fin 8 → Bool
  autoEoi : Bool
  single : Bool
  needsIcw4 : Bool
  expects : PicExpects

namespace Pic8259

/-- The line in service with the highest priority is no longer in service. -/
def endOfInterrupt (p : Pic8259) : Pic8259 :=
  match (List.finRange 8).find? p.inService with
  | some i => { p with inService := Function.update p.inService i false }
  | none => p

/-- A byte for the command port: ICW1, which starts the initialisation, or OCW2, which signals the
end of an interrupt. -/
def command (p : Pic8259) (b : Byte) : Pic8259 :=
  if b.getLsbD 4 then
    { p with requests := fun _ => false, inService := fun _ => false, mask := fun _ => false,
             autoEoi := false, single := b.getLsbD 1, needsIcw4 := b.getLsbD 0, expects := .icw2 }
  else if b &&& 0xF8 = 0x20 then p.endOfInterrupt
  else if b &&& 0xF8 = 0x60 then
    { p with inService := Function.update p.inService (Fin.ofNat 8 b.toNat) false }
  else p

/-- A byte for the data port. -/
def data (p : Pic8259) (b : Byte) : Pic8259 :=
  match p.expects with
  | .mask => { p with mask := fun i => b.getLsbD i }
  | .icw2 => { p with
      base := b &&& 0xF8
      expects := if p.single then (if p.needsIcw4 then .icw4 else .mask) else .icw3 }
  | .icw3 => { p with cascade := b, expects := if p.needsIcw4 then .icw4 else .mask }
  | .icw4 => { p with autoEoi := b.getLsbD 1, expects := .mask }

/-- A request that no line in service holds back. -/
def ready (p : Pic8259) (i : Fin 8) : Bool :=
  p.requests i && !p.mask i && (List.finRange 8).all fun j => !(decide (j ≤ i) && p.inService j)

/-- The request for which the controller asks for an interrupt. -/
def next (p : Pic8259) : Option (Fin 8) := (List.finRange 8).find? p.ready

/-- The processor acknowledges the interrupt of a line. -/
def acknowledge (p : Pic8259) (i : Fin 8) : Pic8259 :=
  { p with
    requests := Function.update p.requests i false
    inService := Function.update p.inService i !p.autoEoi }

/-- The vector of a line. -/
def vector (p : Pic8259) (i : Fin 8) : Byte := p.base ||| BitVec.ofNat 8 i

end Pic8259

/-- A master, and the slave on its line 2. -/
structure PicPair where
  master : Pic8259
  slave : Pic8259

/-- The line of the master through which the slave asks. -/
abbrev cascadeLine : Fin 8 := 2

namespace PicPair

/-- A device raises its line: 0 to 7 are those of the master, 8 to 15 those of the slave. -/
def raise (s : PicPair) (irq : Fin 16) : PicPair :=
  if irq.val < 8 then
    { s with master.requests := Function.update s.master.requests (Fin.ofNat 8 irq) true }
  else { s with slave.requests := Function.update s.slave.requests (Fin.ofNat 8 irq) true }

/-- The master with the request of the slave. -/
def cascaded (s : PicPair) : Pic8259 :=
  { s.master with requests := Function.update s.master.requests cascadeLine s.slave.next.isSome }

/-- The processor takes an interrupt, if there is one: its vector, and the controllers. On a line
with a slave the slave of that number gives the vector, or no one does. -/
def interrupt (s : PicPair) : Option (Byte × PicPair) :=
  match s.cascaded.next with
  | none => none
  | some i =>
    if s.master.cascade.getLsbD i then
      if i = cascadeLine ∧ s.slave.cascade &&& 7 = BitVec.ofNat 8 i then s.slave.next.map fun j =>
        (s.slave.vector j, ⟨s.cascaded.acknowledge i, s.slave.acknowledge j⟩)
      else none
    else some (s.master.vector i, { s with master := s.master.acknowledge i })

end PicPair

namespace Pic8259

variable {p : Pic8259} {i : Fin 8}

/-- With nothing masked or in service each request is ready. -/
theorem next_free (hmask : p.mask = fun _ => false) (hservice : p.inService = fun _ => false) :
    p.next = (List.finRange 8).find? p.requests := by
  rw [next]
  congr 1
  funext i
  simp [ready, hmask, hservice]

/-- A line in service holds back itself and all lines behind it. -/
theorem next_held {k : Fin 8} (hmask : p.mask = fun _ => false)
    (hservice : p.inService = Function.update (fun _ => false) k true) :
    p.next = (List.finRange 8).find? fun i => p.requests i && decide (i < k) := by
  have hall : ∀ k i : Fin 8, ((List.finRange 8).all fun j =>
      !(decide (j ≤ i) && Function.update (fun _ => false) k true j)) = decide (i < k) := by
    decide
  rw [next]
  congr 1
  funext i
  rw [ready, hservice, hall, hmask, Bool.not_false, Bool.and_true]

/-- The only line in service ends its interrupt. -/
theorem endOfInterrupt_only (hservice : p.inService = Function.update (fun _ => false) i true) :
    p.endOfInterrupt = { p with inService := fun _ => false } := by
  have hfind : ∀ i : Fin 8, (List.finRange 8).find? (Function.update (fun _ => false) i true) =
      some i := by decide
  simp only [endOfInterrupt, hservice, hfind, Function.update_idem, Function.update_eq_self]

/-- The line in service with the higher priority ends its interrupt first. -/
theorem endOfInterrupt_nested {k : Fin 8} (hik : i < k) (hservice : p.inService =
      Function.update (Function.update (fun _ => false) k true) i true) :
    p.endOfInterrupt = { p with inService := Function.update (fun _ => false) k true } := by
  have hfind : ∀ i k : Fin 8, i < k → (List.finRange 8).find?
      (Function.update (Function.update (fun _ => false) k true) i true) = some i := by
    decide
  have hback : ∀ i k : Fin 8, i < k → Function.update
      (Function.update (fun _ => false) k true) i false =
        Function.update (fun _ => false) k true := by
    decide
  simp only [endOfInterrupt, hservice, hfind i k hik, Function.update_idem, hback i k hik]

end Pic8259

end Muk
