import Muk.Lib.ByteMemory
import Mathlib.Data.List.OfFn

/-!
# A channel with two drives

Two drives share the registers of a channel. The selected one answers a command with blocks of
256 words, which are read one after the other from the data register. A drive is busy for some
polls of its status after a reset, a command and each block. While it is busy it shows nothing
else in its status, delivers nothing, and ignores what is written to the registers of a command.
-/

namespace Muk

/-- What is stored in the two drives, and for how many polls they are busy after each event. -/
structure AtaDrives where
  block : Bool → BitVec 28 → Fin 512 → Byte
  identity : Bool → Fin 512 → Byte
  delay : ℕ → ℕ

/-- The words of a block. The first byte of each is the low one. -/
def blockWords (block : Fin 512 → Byte) : List (BitVec 16) :=
  List.ofFn fun k : Fin 256 => block ⟨2 * k + 1, by omega⟩ ++ block ⟨2 * k, by omega⟩

/-- A block has 256 words. -/
@[simp] theorem length_blockWords (block : Fin 512 → Byte) : (blockWords block).length = 256 :=
  List.length_ofFn

/-- A word of a block holds two of its bytes, the second one in the high half. -/
theorem getElem?_blockWords (block : Fin 512 → Byte) {k : ℕ} (hk : k < 256) :
    (blockWords block)[k]? = some (block ⟨2 * k + 1, by omega⟩ ++ block ⟨2 * k, by omega⟩) := by
  rw [blockWords, List.getElem?_ofFn, dif_pos hk]

/-- A channel: its drives, the delays that are over, the polls to come while it is busy, whether
it is held in reset, its registers, and the words that are still to be read of each block. -/
structure AtaChannel where
  drives : AtaDrives
  events : ℕ
  busy : ℕ
  resetting : Bool
  count : Byte
  sector : Byte
  cylinderLow : Byte
  cylinderHigh : Byte
  head : Byte
  blocks : List (List (BitVec 16))

namespace AtaChannel

variable {c : AtaChannel}

/-- The channel is held in reset, or its drive is busy. -/
def Busy (c : AtaChannel) : Prop := c.resetting ∨ 0 < c.busy

instance (c : AtaChannel) : Decidable c.Busy := inferInstanceAs (Decidable (_ ∨ _))

/-- The status of a drive that is not busy: it is ready, and requests data if there is some. -/
def readyStatus (c : AtaChannel) : Byte := if c.blocks = [] then 0x40 else 0x48

/-- The status register. -/
def status (c : AtaChannel) : Byte := if c.Busy then 0x80 else c.readyStatus

/-- The status register is read. -/
def poll (c : AtaChannel) : Byte × AtaChannel := (c.status, { c with busy := c.busy - 1 })

/-- The drive is busy for the next delay. -/
def stall (c : AtaChannel) : AtaChannel :=
  { c with busy := c.drives.delay c.events, events := c.events + 1 }

/-- The drive that is selected, the second one if this is true. -/
def second (c : AtaChannel) : Bool := c.head.getLsbD 4

/-- The address of a block in the registers. -/
def address (c : AtaChannel) : BitVec 28 :=
  c.head.setWidth 4 ++ c.cylinderHigh ++ c.cylinderLow ++ c.sector

/-- The number of blocks in the registers. Zero stands for 256. -/
def blockCount (c : AtaChannel) : ℕ := if c.count = 0 then 256 else c.count.toNat

/-- The blocks from an address on. -/
def blocksFrom (drives : AtaDrives) (second : Bool) (address : BitVec 28) (n : ℕ) :
    List (List (BitVec 16)) :=
  (List.range n).map fun i => blockWords (drives.block second (address + BitVec.ofNat 28 i))

/-- A command to the selected drive: a read of blocks by their address, or the identification of
the drive. Any other one ends without data. -/
def command (c : AtaChannel) (code : Byte) : AtaChannel :=
  if code = 0x20 ∧ c.head.getLsbD 6 then
    { c with blocks := blocksFrom c.drives c.second c.address c.blockCount }.stall
  else if code = 0xEC then { c with blocks := [blockWords (c.drives.identity c.second)] }.stall
  else { c with blocks := [] }.stall

/-- The command for the identity has one block to deliver, after the delay of the drive. -/
theorem command_identify (c : AtaChannel) : c.command 0xEC =
    { c with blocks := [blockWords (c.drives.identity c.second)] }.stall :=
  rfl

/-- The control register is written: its bit 2 holds the channel in reset, which leaves the first
drive selected. -/
def control (c : AtaChannel) (data : Byte) : AtaChannel :=
  if data.getLsbD 2 then { c with resetting := true, blocks := [] }
  else if c.resetting then
    { c with resetting := false, count := 1, sector := 1, cylinderLow := 0, cylinderHigh := 0,
             head := 0 }.stall
  else c

/-- A register is written, by its distance from the first one. -/
def write (c : AtaChannel) (register : BitVec 16) (data : Byte) : AtaChannel :=
  if register = 0x206 then c.control data
  else if c.Busy then c
  else if register = 2 then { c with count := data }
  else if register = 3 then { c with sector := data }
  else if register = 4 then { c with cylinderLow := data }
  else if register = 5 then { c with cylinderHigh := data }
  else if register = 6 then { c with head := data }
  else if register = 7 then c.command data
  else c

/-- The data register is read. Without data it floats. -/
def read (c : AtaChannel) : BitVec 16 × AtaChannel :=
  if c.Busy then (0xFFFF, c)
  else match c.blocks with
    | [word] :: rest => (word, { c with blocks := rest }.stall)
    | (word :: words) :: rest => (word, { c with blocks := words :: rest })
    | _ => (0xFFFF, c)

/-! ## A drive that is not busy -/

/-- A channel that is not in reset, and whose delay is over, is not busy. -/
theorem not_busy_of (hreset : c.resetting = false) (hbusy : c.busy = 0) : ¬ c.Busy := by
  simp [Busy, hreset, hbusy]

/-- A word that is not the last one of its block. -/
theorem read_word {word : BitVec 16} {words : List (BitVec 16)} {rest : List (List (BitVec 16))}
    (h : ¬ c.Busy) (hblocks : c.blocks = (word :: words) :: rest) (hwords : words ≠ []) :
    c.read = (word, { c with blocks := words :: rest }) := by
  obtain ⟨next, more, rfl⟩ := List.exists_cons_of_ne_nil hwords
  rw [read, if_neg h, hblocks]

/-- The last word of a block. -/
theorem read_last {word : BitVec 16} {rest : List (List (BitVec 16))} (h : ¬ c.Busy)
    (hblocks : c.blocks = [word] :: rest) : c.read = (word, { c with blocks := rest }.stall) := by
  rw [read, if_neg h, hblocks]

section

variable (hreset : c.resetting = false) (hbusy : c.busy = 0) (data : Byte)
include hreset hbusy

/-- Register 2 is the number of blocks. -/
theorem write_count : c.write 2 data = { c with count := data } := by
  rw [write, if_neg (by decide), if_neg (not_busy_of hreset hbusy)]
  rfl

/-- Register 3 is the lowest byte of the address. -/
theorem write_sector : c.write 3 data = { c with sector := data } := by
  rw [write, if_neg (by decide), if_neg (not_busy_of hreset hbusy)]
  rfl

/-- Register 4 is the second byte of the address. -/
theorem write_cylinderLow : c.write 4 data = { c with cylinderLow := data } := by
  rw [write, if_neg (by decide), if_neg (not_busy_of hreset hbusy)]
  rfl

/-- Register 5 is the third byte of the address. -/
theorem write_cylinderHigh : c.write 5 data = { c with cylinderHigh := data } := by
  rw [write, if_neg (by decide), if_neg (not_busy_of hreset hbusy)]
  rfl

/-- Register 6 has the drive and the highest bits of the address. -/
theorem write_head : c.write 6 data = { c with head := data } := by
  rw [write, if_neg (by decide), if_neg (not_busy_of hreset hbusy)]
  rfl

/-- A write to register 7 is a command. -/
theorem write_command : c.write 7 data = c.command data := by
  rw [write, if_neg (by decide), if_neg (not_busy_of hreset hbusy)]
  rfl

end

/-- The control register without its reset bit. -/
theorem write_control (hreset : c.resetting = false) : c.write 0x206 0 = c := by
  have hbit : (0 : Byte).getLsbD 2 = false := rfl
  simp only [write, if_true, control, hbit, hreset, Bool.false_eq_true, if_false]

/-- The registers of a command take what is written to them while no drive is busy. -/
theorem write_task (hreset : c.resetting = false) (hbusy : c.busy = 0)
    (count sector cylinderLow cylinderHigh head code : Byte) :
    ((((((c.write 0x206 0).write 2 count).write 3 sector).write 4 cylinderLow).write 5
      cylinderHigh).write 6 head).write 7 code =
        command { c with count := count, sector := sector, cylinderLow := cylinderLow,
                         cylinderHigh := cylinderHigh, head := head } code := by
  simp only [write_control, write_count, write_sector, write_cylinderLow, write_cylinderHigh,
    write_head, write_command, hreset, hbusy]

/-- A reset, whatever the drives were doing. -/
theorem write_reset (c : AtaChannel) : (c.write 0x206 0x04).write 0x206 0 =
    { c with resetting := false, blocks := [], count := 1, sector := 1, cylinderLow := 0,
             cylinderHigh := 0, head := 0 }.stall :=
  rfl

end AtaChannel

end Muk
