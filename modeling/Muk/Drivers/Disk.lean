import Muk.Drivers.Ata
import Muk.Fs.Fat16
import Muk.Lib.AtaChannel

/-!
# The driver with its drives

The driver is run on a channel that answers it. On a channel with two drives each read returns the
blocks at its offset, as long as every drive is busy for fewer polls than the 12 of `wait`, and
leaves the channel idle for the next one. This is the disk on which the file system is mounted.
-/

namespace Muk

/-- The bus with one channel, by its first port. -/
def AtaChannel.bus (base : Word16) : PortBus AtaChannel where
  inportb c port := if port = base + 7 then c.poll else (0xFF, c)
  inports c port := if port = base + 0 then c.read else (0xFFFF, c)
  outportb c port data := c.write (port - base) data

namespace PortBus

variable {σ : Type} (bus : PortBus σ) (d : Ata)

/-! ## The driver on a bus -/

/-- `ATA::reset` -/
def reset (s : σ) : σ :=
  let base := d.deviceOffset
  let s := bus.outportb s (base + 0x206) 0x04
  bus.outportb s (base + 0x206) 0

/-- `ATA::readPIO` -/
def readPio (size : ℕ) (s : σ) : Except ArrayFault (PioBuffer Word16 × σ) := do
  let buffer := List.replicate size none
  let (s, buffer) ← forLoop (fun i s => do
    let (word, ports) := bus.inports s.1 d.dataPort
    let buffer ← PioBuffer.put s.2 i word
    .ok (ports, buffer)) 0 (size / 2) (s, buffer)
  .ok (buffer, s)

/-- `ATA::initialise` -/
def initialise (s : σ) : Except ArrayFault σ := do
  let base := d.deviceOffset
  let flags : Word := 0x80 ||| 0x40 ||| 0x20
  let flags := if d.drive.val = 1 then flags ||| 0x10 else flags
  let (connected, s) := bus.inportb s (base + 7)
  if connected = 0xFF then .ok s
  else
    let s := bus.reset d s
    let (_, s) := bus.wait d s Ata.statusBsy 0
    let s := bus.outportb s (base + 0x206) 0
    let s := bus.outportb s (base + 2) 0
    let s := bus.outportb s (base + 3) 0
    let s := bus.outportb s (base + 4) 0
    let s := bus.outportb s (base + 5) 0
    let s := bus.outportb s (base + 6) (flags.setWidth 8)
    let s := bus.outportb s (base + 7) 0xEC
    let (_, s) := bus.wait d s Ata.statusDrq Ata.statusDrq
    let (_, s) ← bus.readPio d 512 s
    .ok s

/-- The calls that use a device. The file system reads one block at a time with `read_u8`. -/
inductive Call where
  | initialise
  | readU8 (offset : Word)
  | readU16 (numBlocks offset : Word)

/-- What a call returns. -/
inductive Reply where
  | done
  | bytes (buffer : PioBuffer Byte)
  | words (buffer : PioBuffer Word16)

/-- A call. -/
def serve (s : σ) : Call → Except ArrayFault (Reply × σ)
  | .initialise => do
    let s ← bus.initialise d s
    .ok (.done, s)
  | .readU8 offset => do
    let (buffer, s) ← bus.readU8 d s 1 offset
    .ok (.bytes buffer, s)
  | .readU16 numBlocks offset => do
    let (buffer, s) ← bus.readU16 d s numBlocks offset
    .ok (.words buffer, s)

/-- Calls one after the other. -/
def serveAll (s : σ) : List Call → Except ArrayFault (List Reply × σ)
  | [] => .ok ([], s)
  | call :: calls => do
    let (reply, s) ← bus.serve d s call
    let (replies, s) ← serveAll s calls
    .ok (reply :: replies, s)

end PortBus

/-! ## Cells that were filled in order -/

namespace PioBuffer

variable {α : Type} {buffer : PioBuffer α} {known : List α} {n : ℕ}

/-- A buffer of `n` cells, the first of which hold a list. -/
structure Holds (n : ℕ) (buffer : PioBuffer α) (known : List α) : Prop where
  length : buffer.length = n
  known : buffer.take known.length = known.map some

/-- A new buffer holds nothing yet, whatever its cells are. -/
theorem Holds.new (n : ℕ) (cell : Option α) : Holds n (List.replicate n cell) [] :=
  ⟨List.length_replicate, rfl⟩

/-- An assignment to the next cell succeeds while there is room, and adds its value to what the
buffer holds. -/
theorem Holds.put (h : Holds n buffer known) (hroom : known.length < n) (a : α) :
    ∃ buffer', buffer.put known.length a = .ok buffer' ∧ Holds n buffer' (known ++ [a]) := by
  have hlt : known.length < buffer.length := by rw [h.length]; exact hroom
  refine ⟨_, if_pos hlt, List.length_set.trans h.length, ?_⟩
  rw [List.length_append, List.length_singleton, List.take_add_one, List.getElem?_set_self hlt,
    List.take_set_of_le (le_refl _), h.known, List.map_append]
  rfl

/-- A buffer that holds as many values as it has cells is the list of these values. -/
theorem Holds.full (h : Holds n buffer known) (hn : known.length = n) :
    buffer = known.map some := by
  rw [← h.known, List.take_of_length_le (by rw [h.length, hn])]

end PioBuffer

/-! ## A channel -/

namespace AtaChannel

variable {c : AtaChannel} {drives : AtaDrives} {blocks rest : List (List Word16)}
  {words known : List Word16} {buffer : PioBuffer Word16} {d : Ata} {n i : ℕ}

/-- Every drive is busy for fewer polls than the 12 that `wait` makes. -/
def Prompt (drives : AtaDrives) : Prop := ∀ k, drives.delay k < 12

/-- The channel with these drives has these blocks to deliver, and will be ready in time. -/
structure Serving (drives : AtaDrives) (blocks : List (List Word16)) (c : AtaChannel) : Prop where
  drives : c.drives = drives
  blocks : c.blocks = blocks
  resetting : c.resetting = false
  busy : c.busy < 12

/-- The channel can be accessed now. -/
structure Ready (drives : AtaDrives) (blocks : List (List Word16)) (c : AtaChannel) : Prop extends
    Serving drives blocks c where
  ready : ¬ c.Busy

/-- A channel that will be ready in time is ready once its delay is over. -/
theorem Serving.ready (h : Serving drives blocks c) : Ready drives blocks { c with busy := 0 } where
  drives := h.drives
  blocks := h.blocks
  resetting := h.resetting
  busy := Nat.zero_lt_succ 11
  ready := not_busy_of h.resetting rfl

/-- The next delay is over in time. -/
theorem stall_serving (hprompt : Prompt drives) (hdrives : c.drives = drives)
    (hblocks : c.blocks = blocks) (hreset : c.resetting = false) :
    Serving drives blocks c.stall := by
  refine ⟨hdrives, hblocks, hreset, ?_⟩
  rw [stall, hdrives]
  exact hprompt _

/-- Without a block to deliver, the drive reports ready and asks for no transfer. -/
theorem readyStatus_eq (hblocks : c.blocks = []) : c.readyStatus = 0x40 := by
  rw [readyStatus, hblocks, if_pos rfl]

/-- The loop of `wait` ends as soon as the drive is ready. -/
theorem waitLoop_serving {mask waitForState : Byte} {polls : ℕ} (hreset : c.resetting = false)
    (hpolls : c.busy < polls) (hbusy : (0x80 : Byte) &&& mask ≠ waitForState)
    (hready : c.readyStatus &&& mask = waitForState) :
    (AtaChannel.bus d.deviceOffset).waitLoop d mask waitForState polls c =
      (true, { c with busy := 0 }) := by
  induction polls generalizing c with
  | zero => omega
  | succ polls ih =>
    have hpoll : (AtaChannel.bus d.deviceOffset).inportb c (d.deviceOffset + 7) = c.poll :=
      if_pos rfl
    rw [PortBus.waitLoop, hpoll, poll]
    by_cases hzero : c.busy = 0
    · have hstatus : c.status = c.readyStatus := if_neg (not_busy_of hreset hzero)
      simp only [hstatus, hready, if_true, hzero, Nat.zero_sub]
    · have hstatus : c.status = 0x80 := if_pos (.inr (Nat.pos_of_ne_zero hzero))
      simp only [hstatus, if_neg hbusy]
      rw [ih (c := { c with busy := c.busy - 1 }) hreset (show c.busy - 1 < polls by omega) hready]

/-- `wait` for a drive that will be ready in time. -/
theorem Serving.wait (h : Serving drives blocks c) (d : Ata) (mask waitForState : Byte)
    (hbusy : (0x80 : Byte) &&& mask ≠ waitForState)
    (hready : c.readyStatus &&& mask = waitForState) :
    (AtaChannel.bus d.deviceOffset).wait d c mask waitForState = (true, { c with busy := 0 }) :=
  waitLoop_serving h.resetting h.busy hbusy hready

/-- `wait` for a drive that has data. -/
theorem Serving.wait_drq (h : Serving drives (words :: rest) c) :
    Ready drives (words :: rest) ((AtaChannel.bus d.deviceOffset).wait d c Ata.statusDrq
      Ata.statusDrq).2 := by
  have hready : c.readyStatus = 0x48 := by
    rw [readyStatus, h.blocks, if_neg (List.cons_ne_nil _ _)]
  rw [h.wait d Ata.statusDrq Ata.statusDrq (by decide) (by rw [hready]; decide)]
  exact h.ready

/-! ## Data -/

/-- `i` words of a block were read, and the blocks after it are to come. -/
structure Reading (drives : AtaDrives) (words : List Word16) (rest : List (List Word16)) (i : ℕ)
    (c : AtaChannel) : Prop where
  serving : Serving drives (if i < words.length then words.drop i :: rest else rest) c
  ready : i < words.length → ¬ c.Busy

/-- A ready channel with a block to deliver starts at its first word. -/
theorem Ready.reading (h : Ready drives (words :: rest) c) (hwords : words ≠ []) :
    Reading drives words rest 0 c := by
  refine ⟨?_, fun _ => h.ready⟩
  rw [if_pos (List.length_pos_of_ne_nil hwords)]
  exact h.toServing

/-- A read of the data port returns the next word of the block, and leaves the words after it to
come. -/
theorem Reading.read (hprompt : Prompt drives) (h : Reading drives words rest i c)
    (hi : i < words.length) : c.read.1 = words[i] ∧ Reading drives words rest (i + 1) c.read.2 := by
  have hserving := h.serving
  rw [if_pos hi, List.drop_eq_getElem_cons hi] at hserving
  by_cases hlast : i + 1 < words.length
  · rw [read_word (h.ready hi) hserving.blocks (by simpa using hlast)]
    refine ⟨rfl, ⟨?_, fun _ => h.ready hi⟩⟩
    rw [if_pos hlast]
    exact ⟨hserving.drives, rfl, hserving.resetting, hserving.busy⟩
  · have hnil : words.drop (i + 1) = [] := List.drop_eq_nil_of_le (by omega)
    rw [hnil] at hserving
    rw [read_last (h.ready hi) hserving.blocks]
    refine ⟨rfl, ⟨?_, fun hlt => absurd hlt hlast⟩⟩
    rw [if_neg hlast]
    exact stall_serving hprompt hserving.drives rfl hserving.resetting

/-- One word is read to the next cell of a buffer. -/
theorem Reading.put (hprompt : Prompt drives) (h : Reading drives words rest i c)
    (hbuffer : buffer.Holds n (known ++ words.take i)) (hi : i < words.length)
    (hroom : known.length + words.length ≤ n) :
    ∃ buffer', buffer.put (known.length + i) c.read.1 = .ok buffer' ∧
      Reading drives words rest (i + 1) c.read.2 ∧
      buffer'.Holds n (known ++ words.take (i + 1)) := by
  obtain ⟨hword, hnext⟩ := h.read hprompt hi
  have hlength : (known ++ words.take i).length = known.length + i := by
    rw [List.length_append, List.length_take, Nat.min_eq_left (Nat.le_of_lt hi)]
  obtain ⟨buffer', hput, hbuffer'⟩ := hbuffer.put (by omega) words[i]
  rw [hlength, ← hword] at hput
  refine ⟨buffer', hput, hnext, ?_⟩
  rwa [List.take_add_one, List.getElem?_eq_getElem hi, ← List.append_assoc]

/-- The loop over a block reads it to the next cells. -/
theorem Ready.readBlock (hprompt : Prompt drives) (h : Ready drives (words :: rest) c)
    (hwords : words.length = 256) (hbuffer : buffer.Holds n known) {blockOffset : Word}
    (hoffset : blockOffset.toNat = known.length) (hroom : known.length + 256 ≤ n)
    (hn : n < 2 ^ 32) :
    ∃ c' buffer', (AtaChannel.bus d.deviceOffset).readBlock d blockOffset (c, buffer) =
      .ok (c', buffer') ∧ Serving drives rest c' ∧ buffer'.Holds n (known ++ words) := by
  have hnil : words ≠ [] := List.ne_nil_of_length_pos (by omega)
  obtain ⟨⟨c', buffer'⟩, hloop, hreading, hholds⟩ : ∃ next,
      (AtaChannel.bus d.deviceOffset).readBlock d blockOffset (c, buffer) = .ok next ∧
        Reading drives words rest 256 next.1 ∧ next.2.Holds n (known ++ words.take 256) := by
    refine forLoop_invariant (fun i (now : AtaChannel × PioBuffer Word16) =>
      Reading drives words rest i now.1 ∧ now.2.Holds n (known ++ words.take i))
      ⟨h.reading hnil, by simpa using hbuffer⟩ ?_
    rintro i hi ⟨c, buffer⟩ ⟨hreading, hholds⟩
    obtain ⟨buffer', hput, hnext⟩ := hreading.put hprompt hholds (by omega) (by omega)
    have hplace : (blockOffset + BitVec.ofNat 32 (0 + i)).toNat = known.length + i := by
      rw [Nat.zero_add, BitVec.toNat_add, toNat_ofNat_of_lt (by omega), hoffset,
        Nat.mod_eq_of_lt (by omega)]
    have hread : (AtaChannel.bus d.deviceOffset).inports c d.dataPort = c.read := if_pos rfl
    refine ⟨(c.read.2, buffer'), ?_, hnext⟩
    simp only [hread, hplace, hput, ok_bind]
  have hserving := hreading.serving
  rw [if_neg (by omega)] at hserving
  rw [List.take_of_length_le (by omega)] at hholds
  exact ⟨c', buffer', hloop, hserving, hholds⟩

/-- `readPio` of 512 bytes reads the words of one block and leaves the blocks after it to be
served. -/
theorem Ready.readPio (hprompt : Prompt drives) (h : Ready drives (words :: rest) c)
    (hwords : words.length = 256) : ∃ buffer c',
    (AtaChannel.bus d.deviceOffset).readPio d 512 c = .ok (buffer, c') ∧
      Serving drives rest c' := by
  have hnil : words ≠ [] := List.ne_nil_of_length_pos (by omega)
  obtain ⟨⟨c', buffer'⟩, hloop, hreading, -⟩ : ∃ next, forLoop (fun i
      (s : AtaChannel × PioBuffer Word16) => do
        let (word, ports) := (AtaChannel.bus d.deviceOffset).inports s.1 d.dataPort
        let buffer ← PioBuffer.put s.2 i word
        .ok (ports, buffer)) 0 (512 / 2) (c, List.replicate 512 none) = .ok next ∧
      Reading drives words rest 256 next.1 ∧ next.2.Holds 512 ([] ++ words.take 256) := by
    refine forLoop_invariant (fun i (now : AtaChannel × PioBuffer Word16) =>
      Reading drives words rest i now.1 ∧ now.2.Holds 512 ([] ++ words.take i))
      ⟨h.reading hnil, PioBuffer.Holds.new 512 none⟩ ?_
    rintro i hi ⟨c, buffer⟩ ⟨hreading, hholds⟩
    obtain ⟨buffer', hput, hnext⟩ :=
      hreading.put hprompt hholds (by omega) (by rw [hwords, List.length_nil]; omega)
    have hread : (AtaChannel.bus d.deviceOffset).inports c d.dataPort = c.read := if_pos rfl
    refine ⟨(c.read.2, buffer'), ?_, hnext⟩
    simp only [hread, List.length_nil] at hput ⊢
    simp only [hput, ok_bind]
  have hserving := hreading.serving
  rw [if_neg (by omega)] at hserving
  refine ⟨buffer', c', ?_, hserving⟩
  simp only [PortBus.readPio, hloop, ok_bind]

/-! ## Commands -/

/-- A register is written by its distance from the first one. -/
theorem outportb_bus (c : AtaChannel) (register : Word16) (data : Byte) :
    (AtaChannel.bus d.deviceOffset).outportb c (d.deviceOffset + register) data =
      c.write register data := by
  change c.write (d.deviceOffset + register - d.deviceOffset) data = _
  rw [BitVec.add_comm, BitVec.add_sub_cancel]

/-- What `prepare` writes to the register of the drive and the head. -/
def headFlags (d : Ata) (offset : Word) : Byte :=
  ((if d.drive.val = 1 then (0xE0 : Word) ||| 0x10 else 0xE0) |||
    (offset.sshiftRight 24 &&& 0xFF)).setWidth 8

/-- The drive to which `prepare` sends a command. -/
def selects (d : Ata) (offset : Word) : Bool := decide (d.drive.val = 1) || offset.getLsbD 28

/-- A byte of an offset. -/
theorem getLsbD_offset (offset : Word) {s i : ℕ} (hi : i < 8) (hs : s ≤ 24) :
    ((offset.sshiftRight s &&& 0xFF).setWidth 8).getLsbD i = offset.getLsbD (s + i) := by
  have hmask : (0xFF : Word).getLsbD i = true := by
    decide +revert
  have hlt : s + i < 32 := by omega
  simp only [BitVec.getLsbD_setWidth, BitVec.getLsbD_and, hmask, BitVec.getLsbD_sshiftRight, hlt,
    if_true, Bool.and_true, decide_eq_true hi, Bool.true_and]
  simp only [Bool.and_eq_right_iff_imp, Bool.not_eq_true', decide_eq_false_iff_not]
  omega

/-- The byte for the head register has the drive, the mode bits, and bits 24 to 27 of the
address. -/
theorem getLsbD_headFlags (offset : Word) (hi : i < 8) : (headFlags d offset).getLsbD i =
    ((if d.drive.val = 1 then (0xF0 : Byte) else 0xE0).getLsbD i || offset.getLsbD (24 + i)) := by
  rw [headFlags, BitVec.setWidth_or, BitVec.getLsbD_or, getLsbD_offset offset hi le_rfl]
  split_ifs <;> rfl

/-- The registers hold the lower 28 bits of the offset. -/
theorem address_headFlags (d : Ata) (offset : Word) :
    ((headFlags d offset).setWidth 4 ++ (offset.sshiftRight 16 &&& 0xFF).setWidth 8 ++
      (offset.sshiftRight 8 &&& 0xFF).setWidth 8 ++ offset.setWidth 8 : BitVec 28) =
      offset.setWidth 28 := by
  have hflags : ∀ i < 4, (if d.drive.val = 1 then (0xF0 : Byte) else 0xE0).getLsbD i = false := by
    split_ifs <;> decide
  apply BitVec.eq_of_getLsbD_eq
  intro i hi
  have hbits : (offset.setWidth 28).getLsbD i = offset.getLsbD i := by
    rw [BitVec.getLsbD_setWidth, decide_eq_true hi, Bool.true_and]
  rw [hbits]
  simp only [BitVec.getLsbD_append]
  split_ifs with hsector hlow hhigh
  · rw [BitVec.getLsbD_setWidth, decide_eq_true hsector, Bool.true_and]
  · rw [getLsbD_offset offset hlow (by decide)]
    congr 1
    omega
  · rw [getLsbD_offset offset hhigh (by decide)]
    congr 1
    omega
  · have hfour : i - 8 - 8 - 8 < 4 := by omega
    rw [BitVec.getLsbD_setWidth, decide_eq_true hfour, Bool.true_and,
      getLsbD_headFlags offset (by omega), hflags _ hfour, Bool.false_or]
    congr 1
    omega

/-- The number of blocks that a drive reads, as the registers hold it. -/
theorem blockCount_eq {numBlocks : Word} (hpos : 0 < numBlocks.toNat)
    (hle : numBlocks.toNat ≤ 256) :
    (if (numBlocks.setWidth 8 : Byte) = 0 then 256 else (numBlocks.setWidth 8 : Byte).toNat) =
      numBlocks.toNat := by
  have hzero : (numBlocks.setWidth 8 : Byte) = 0 ↔ numBlocks.toNat % 256 = 0 := by
    rw [← BitVec.toNat_inj, BitVec.toNat_setWidth]
    rfl
  rw [BitVec.toNat_setWidth]
  split_ifs with h
  · rw [hzero] at h
    omega
  · rw [hzero] at h
    omega

/-- **`prepare` makes the drive serve the blocks at the offset.** -/
theorem Serving.prepare (hprompt : Prompt drives) (h : Serving drives [] c) (numBlocks : Word)
    (hpos : 0 < numBlocks.toNat) (hle : numBlocks.toNat ≤ 256) (offset : Word) :
    Serving drives (blocksFrom drives (selects d offset) (offset.setWidth 28) numBlocks.toNat)
      ((AtaChannel.bus d.deviceOffset).prepare d c Ata.commandRead numBlocks offset).2 := by
  have hready := readyStatus_eq h.blocks
  have hwait := h.wait d (Ata.statusBsy ||| Ata.statusRdy) Ata.statusRdy (by decide)
    (show c.readyStatus &&& _ = Ata.statusRdy by rw [hready]; decide)
  have hprepare : ((AtaChannel.bus d.deviceOffset).prepare d c Ata.commandRead numBlocks offset).2 =
      ({ c with busy := 0, count := numBlocks.setWidth 8, sector := offset.setWidth 8,
                cylinderLow := (offset.sshiftRight 8 &&& 0xFF).setWidth 8,
                cylinderHigh := (offset.sshiftRight 16 &&& 0xFF).setWidth 8,
                head := headFlags d offset } : AtaChannel).command 0x20 := by
    simp only [PortBus.prepare, hwait, outportb_bus]
    exact write_task (c := { c with busy := 0 }) h.resetting rfl _ _ _ _ _ _
  have hlba : (headFlags d offset).getLsbD 6 = true := by
    rw [getLsbD_headFlags offset (by decide), Bool.or_eq_true]
    left
    split_ifs <;> rfl
  rw [hprepare, command, if_pos ⟨rfl, hlba⟩]
  refine stall_serving hprompt h.drives ?_ h.resetting
  have hsecond : (headFlags d offset).getLsbD 4 = selects d offset := by
    rw [getLsbD_headFlags offset (by decide), selects]
    split_ifs with hdrive <;> simp [hdrive]
  simp only [second, address, blockCount, hsecond, address_headFlags, blockCount_eq hpos hle,
    h.drives]

/-! ## Reads -/

/-- As many blocks are delivered as the command asks for. -/
theorem length_blocksFrom (drives : AtaDrives) (second : Bool) (address : BitVec 28) (n : ℕ) :
    (blocksFrom drives second address n).length = n := by
  rw [blocksFrom, List.length_map, List.length_range]

/-- The first blocks have 256 words each. -/
theorem length_flatten_take (drives : AtaDrives) (second : Bool) (address : BitVec 28) {n k : ℕ}
    (hk : k ≤ n) : ((blocksFrom drives second address n).take k).flatten.length = k * 256 := by
  have hwords : List.length ∘ (fun i => blockWords (drives.block second
      (address + BitVec.ofNat 28 i))) = fun _ => 256 :=
    funext fun i => length_blockWords _
  rw [blocksFrom, ← List.map_take, List.length_flatten, List.map_map, hwords, List.map_const',
    List.sum_replicate, List.length_take, List.length_range, Nat.min_eq_left hk, smul_eq_mul]

/-- `read_u16` returns the words of the blocks and leaves the channel idle. -/
theorem Serving.readU16 (hprompt : Prompt drives) (h : Serving drives [] c) (numBlocks : Word)
    (hpos : 0 < numBlocks.toNat) (hle : numBlocks.toNat ≤ 256) (offset : Word) :
    ∃ c', (AtaChannel.bus d.deviceOffset).readU16 d c numBlocks offset =
      .ok ((blocksFrom drives (selects d offset) (offset.setWidth 28)
        numBlocks.toNat).flatten.map some, c') ∧ Serving drives [] c' := by
  have hprepare := h.prepare (d := d) hprompt numBlocks hpos hle offset
  generalize hblocks : blocksFrom drives (selects d offset) (offset.setWidth 28)
    numBlocks.toNat = blocks at hprepare ⊢
  have hlength : blocks.length = numBlocks.toNat := by rw [← hblocks, length_blocksFrom]
  have hsize : (numBlocks * 512#32 / 2#32).toNat = numBlocks.toNat * 256 := by
    rw [Ata.words_size, Nat.mod_eq_of_lt (by omega)]
  have hbefore : ∀ k ≤ numBlocks.toNat, ((blocks.take k).flatten).length = k * 256 := by
    intro k hk
    rw [← hblocks, length_flatten_take _ _ _ hk]
  obtain ⟨⟨c', buffer⟩, hloop, hserving, hholds⟩ : ∃ next,
      forLoop ((AtaChannel.bus d.deviceOffset).blockU16 d) 0 numBlocks.toNat
        (((AtaChannel.bus d.deviceOffset).prepare d c Ata.commandRead numBlocks offset).2,
          List.replicate (numBlocks * 512#32 / 2#32).toNat none) = .ok next ∧
      Serving drives (blocks.drop numBlocks.toNat) next.1 ∧
      next.2.Holds (numBlocks.toNat * 256) (blocks.take numBlocks.toNat).flatten := by
    refine forLoop_invariant (fun k (now : AtaChannel × PioBuffer Word16) =>
      Serving drives (blocks.drop k) now.1 ∧
        now.2.Holds (numBlocks.toNat * 256) (blocks.take k).flatten)
      ⟨hprepare, by rw [hsize]; exact PioBuffer.Holds.new _ none⟩ ?_
    rintro k hk ⟨c, buffer⟩ ⟨hserving, hholds⟩
    have hlt : k < blocks.length := by omega
    rw [List.drop_eq_getElem_cons hlt] at hserving
    have hwords : blocks[k].length = 256 := by
      simp only [← hblocks, blocksFrom, List.getElem_map, length_blockWords]
    have hoffset : (BitVec.ofNat 32 (0 + k) * 512#32 / 2#32).toNat =
        (blocks.take k).flatten.length := by
      have hsmall : k < 2 ^ 32 := by omega
      rw [Nat.zero_add, Ata.words_size, toNat_ofNat_of_lt hsmall, Nat.mod_eq_of_lt (by omega),
        hbefore k (by omega)]
    obtain ⟨c', buffer', hread, hnext, hholds'⟩ := (hserving.wait_drq (d := d)).readBlock (d := d)
      hprompt hwords hholds hoffset (by rw [hbefore k (by omega)]; omega) (by omega)
    refine ⟨(c', buffer'), hread, hnext, ?_⟩
    rwa [List.take_add_one, List.getElem?_eq_getElem hlt, Option.toList_some, List.flatten_append,
      List.flatten_singleton]
  rw [List.drop_eq_nil_of_le (by omega)] at hserving
  rw [List.take_of_length_le (by omega)] at hholds
  obtain rfl := hholds.full (by rw [← hbefore _ le_rfl, List.take_of_length_le (by omega)])
  refine ⟨c', ?_, hserving⟩
  simp only [PortBus.readU16, hloop, ok_bind]

/-- `read_u8` returns the bytes of one block and leaves the channel idle. -/
theorem Serving.readU8 (hprompt : Prompt drives) (h : Serving drives [] c) (offset : Word) :
    ∃ c', (AtaChannel.bus d.deviceOffset).readU8 d c 1 offset =
      .ok ((Sector.toList (drives.block (selects d offset) (offset.setWidth 28))).map some, c') ∧
        Serving drives [] c' := by
  have hprepare := h.prepare (d := d) hprompt 1 (by decide) (by decide) offset
  generalize hblock : drives.block (selects d offset) (offset.setWidth 28) = block
  have hblocks : blocksFrom drives (selects d offset) (offset.setWidth 28) (1 : Word).toNat =
      [blockWords block] := by
    rw [← hblock]
    exact congrArg (fun address => [blockWords (drives.block (selects d offset) address)])
      (BitVec.add_zero _)
  rw [hblocks] at hprepare
  have hshorts : (1#32 * 512#32 / 2#32).toNat = 256 := rfl
  obtain ⟨c', bufferShort, hread, hserving, hholds⟩ :=
    (hprepare.wait_drq (d := d)).readBlock (d := d) hprompt (length_blockWords block)
      (PioBuffer.Holds.new 256 (some 0))
      (show (BitVec.ofNat 32 (0 + 0) * 512#32).toNat = 0 from rfl) le_rfl (by omega)
  rw [List.nil_append] at hholds
  have hwords := hholds.full (length_blockWords block)
  let byte (i : ℕ) : Byte := if h : i < 512 then block ⟨i, h⟩ else 0
  have hcells : ∀ k < 256, bufferShort[k]? = some (some (byte (2 * k + 1) ++ byte (2 * k))) := by
    intro k hk
    have hhigh : 2 * k + 1 < 512 := by omega
    have hlow : 2 * k < 512 := by omega
    rw [hwords, List.getElem?_map, getElem?_blockWords block hk]
    simp only [byte, dif_pos hhigh, dif_pos hlow, Option.map_some]
  have hroom : 512 ≤ (List.replicate 512 none : PioBuffer Byte).length := by
    rw [List.length_replicate]
  obtain ⟨bytes, hsplit, hlength, hbytes⟩ := Ata.splitWords_spec hcells hroom
  rw [List.length_replicate] at hlength
  have hresult : bytes = (Sector.toList block).map some := by
    unfold Sector.toList
    refine List.ext_getElem? fun i => ?_
    by_cases hi : i < 512
    · obtain ⟨hlow, hhigh⟩ := hbytes (i / 2) (by omega)
      have hbyte : bytes[i]? = some (some (byte i)) := by
        rcases Nat.mod_two_eq_zero_or_one i with hmod | hmod
        · rw [show i = 2 * (i / 2) by omega, hlow, BitVec.extractLsb'_append_eq_right]
        · rw [show i = 2 * (i / 2) + 1 by omega, hhigh, BitVec.extractLsb'_append_eq_left]
      rw [hbyte, List.getElem?_map, List.getElem?_ofFn, dif_pos hi]
      simp only [byte, dif_pos hi, Option.map_some]
    · rw [List.getElem?_eq_none (by omega), List.getElem?_eq_none]
      rw [List.length_map, List.length_ofFn]
      omega
  have hpass : (AtaChannel.bus d.deviceOffset).blockU8 d (0 + 0)
      (((AtaChannel.bus d.deviceOffset).prepare d c Ata.commandRead 1 offset).2,
        List.replicate 256 (some 0), List.replicate 512 none) = .ok (c', bufferShort, bytes) := by
    simp only [PortBus.blockU8, hread, ok_bind, hsplit]
  refine ⟨c', ?_, hserving⟩
  rw [← hresult]
  have hloop : forLoop ((AtaChannel.bus d.deviceOffset).blockU8 d) 0 1 _ =
      .ok (c', bufferShort, bytes) :=
    (ok_bind _ _).trans hpass
  exact (congrArg (· >>= _) hloop).trans (ok_bind _ _)

/-- A drive that is identified has a block to deliver. -/
theorem Serving.identify (hprompt : Prompt drives) (h : Serving drives [] c) (head : Byte) :
    ∃ block, Serving drives [blockWords block] (((((((({ c with busy := 0 } : AtaChannel).write
      0x206 0).write 2 0).write 3 0).write 4 0).write 5 0).write 6 head).write 7 0xEC) := by
  rw [write_task (c := { c with busy := 0 }) h.resetting rfl, command_identify]
  exact ⟨_, stall_serving hprompt h.drives rfl h.resetting⟩

/-- `initialise` leaves the channel idle, whatever its drives were doing. -/
theorem initialise_serving (d : Ata) (hprompt : Prompt c.drives) :
    ∃ c', (AtaChannel.bus d.deviceOffset).initialise d c = .ok c' ∧ Serving c.drives [] c' := by
  have hconnected : (AtaChannel.bus d.deviceOffset).inportb c (d.deviceOffset + 7) = c.poll :=
    if_pos rfl
  have hstatus : c.status ≠ 0xFF := by
    rw [status, readyStatus]
    split_ifs <;> decide
  have hreset : Serving c.drives []
      ((({ c with busy := c.busy - 1 } : AtaChannel).write 0x206 0x04).write 0x206 0) := by
    rw [write_reset]
    exact stall_serving hprompt rfl rfl rfl
  have hready := readyStatus_eq hreset.blocks
  have hwait := hreset.wait d Ata.statusBsy 0 (by decide)
    (by rw [hready]; decide)
  obtain ⟨block, hidentify⟩ := hreset.identify hprompt
    ((if d.drive.val = 1 then (0x80 ||| 0x40 ||| 0x20 : Word) ||| 0x10
      else 0x80 ||| 0x40 ||| 0x20).setWidth 8)
  obtain ⟨buffer, c', hread, hserving⟩ := (hidentify.wait_drq (d := d)).readPio (d := d) hprompt
    (length_blockWords block)
  refine ⟨c', ?_, hserving⟩
  simp only [PortBus.initialise, hconnected, poll, if_neg hstatus, outportb_bus, PortBus.reset,
    hwait, hread, ok_bind]

/-! ## The disk -/

/-- The disk that a device is: each offset stands for the block that the drives have there. -/
def disk (drives : AtaDrives) (d : Ata) : Disk := fun n =>
  drives.block (selects d (BitVec.ofInt 32 n)) ((BitVec.ofInt 32 n).setWidth 28)

/-- What a call returns for a disk. -/
def answer (disk : Disk) : PortBus.Call → PortBus.Reply
  | .initialise => .done
  | .readU8 offset => .bytes ((disk offset.toInt).toList.map some)
  | .readU16 numBlocks offset => .words (((List.range numBlocks.toNat).flatMap fun i : ℕ =>
      blockWords (disk (offset.toInt + i))).map some)

/-- A call that the registers can express: from 1 to 256 blocks, none past the last address. -/
def Fits : PortBus.Call → Prop
  | .initialise => True
  | .readU8 _ => True
  | .readU16 numBlocks offset => 0 < numBlocks.toNat ∧ numBlocks.toNat ≤ 256 ∧
      offset.toNat % 2 ^ 28 + numBlocks.toNat ≤ 2 ^ 28

/-- The disk at an offset of a call. -/
theorem disk_toInt (drives : AtaDrives) (d : Ata) (offset : Word) :
    disk drives d offset.toInt = drives.block (selects d offset) (offset.setWidth 28) := by
  rw [disk, BitVec.ofInt_toInt]

/-- The block that is served `i` blocks behind an offset is that of the drive which the offset
selects. -/
theorem disk_add (drives : AtaDrives) (d : Ata) {offset : Word}
    (hi : offset.toNat % 2 ^ 28 + i < 2 ^ 28) : disk drives d (offset.toInt + i) =
      drives.block (selects d offset) (offset.setWidth 28 + BitVec.ofNat 28 i) := by
  have hoffset : BitVec.ofInt 32 (offset.toInt + i) = offset + BitVec.ofNat 32 i := by
    rw [BitVec.ofInt_add, BitVec.ofInt_toInt, BitVec.ofInt_natCast]
  have hlt := offset.isLt
  have hsum : (offset + BitVec.ofNat 32 i).toNat = offset.toNat + i := by
    rw [BitVec.toNat_add, toNat_ofNat_of_lt (by omega), Nat.mod_eq_of_lt (by omega)]
  have hselects : selects d (offset + BitVec.ofNat 32 i) = selects d offset := by
    have hdiv : (offset.toNat + i) / 2 ^ 28 = offset.toNat / 2 ^ 28 := by omega
    simp only [selects, BitVec.getLsbD, hsum, Nat.testBit_eq_decide_div_mod_eq, hdiv]
  have haddress : (offset + BitVec.ofNat 32 i).setWidth 28 =
      offset.setWidth 28 + BitVec.ofNat 28 i := by
    apply BitVec.eq_of_toNat_eq
    rw [BitVec.toNat_setWidth, hsum, BitVec.toNat_add, BitVec.toNat_setWidth, BitVec.toNat_ofNat]
    omega
  rw [disk, hoffset, hselects, haddress]

/-- A call is answered as by the disk, and leaves the channel idle. -/
theorem Serving.serve (hprompt : Prompt drives) (h : Serving drives [] c) {call : PortBus.Call}
    (hfits : Fits call) : ∃ c', (AtaChannel.bus d.deviceOffset).serve d c call =
      .ok (answer (disk drives d) call, c') ∧ Serving drives [] c' := by
  cases call with
  | initialise =>
    obtain ⟨c', hinit, hserving⟩ := initialise_serving (c := c) d (by rw [h.drives]; exact hprompt)
    rw [h.drives] at hserving
    refine ⟨c', ?_, hserving⟩
    simp only [PortBus.serve, hinit, ok_bind, answer]
  | readU8 offset =>
    obtain ⟨c', hread, hserving⟩ := h.readU8 (d := d) hprompt offset
    refine ⟨c', ?_, hserving⟩
    rw [answer, disk_toInt, PortBus.serve, hread, ok_bind]
  | readU16 numBlocks offset =>
    obtain ⟨hpos, hle, hend⟩ := hfits
    obtain ⟨c', hread, hserving⟩ := h.readU16 (d := d) hprompt numBlocks hpos hle offset
    refine ⟨c', ?_, hserving⟩
    have hblocks : blocksFrom drives (selects d offset) (offset.setWidth 28) numBlocks.toNat =
        (List.range numBlocks.toNat).map fun i : ℕ =>
          blockWords (disk drives d (offset.toInt + i)) := by
      refine List.map_congr_left fun i hi => ?_
      have hlt := List.mem_range.mp hi
      rw [disk_add drives d (by omega)]
    simp only [PortBus.serve, hread, ok_bind, answer, hblocks, List.flatMap_def]

/-- A run of calls returns what the disk has at each offset, and leaves the channel ready for
another. -/
theorem Serving.serveAll (hprompt : Prompt drives) (h : Serving drives [] c)
    {calls : List PortBus.Call} (hfits : ∀ call ∈ calls, Fits call) :
    ∃ c', (AtaChannel.bus d.deviceOffset).serveAll d c calls =
      .ok (calls.map (answer (disk drives d)), c') ∧ Serving drives [] c' := by
  induction calls generalizing c with
  | nil => exact ⟨c, rfl, h⟩
  | cons call calls ih =>
    rw [List.forall_mem_cons] at hfits
    obtain ⟨c₁, hcall, hserving⟩ := h.serve (d := d) hprompt hfits.1
    obtain ⟨c', hcalls, hserving'⟩ := ih hserving hfits.2
    refine ⟨c', ?_, hserving'⟩
    simp only [PortBus.serveAll, hcall, hcalls, ok_bind, List.map_cons]

/-- **The driver is a disk.** In every run of calls that starts with `initialise`, whatever the
drives were doing before, each call returns what the disk has at its offset, if every drive is busy
for fewer polls than the 12 that `wait` makes. -/
theorem driver_is_disk (d : Ata) (c : AtaChannel) (hprompt : Prompt c.drives)
    (calls : List PortBus.Call) (hfits : ∀ call ∈ calls, Fits call) :
    ∃ c', (AtaChannel.bus d.deviceOffset).serveAll d c (.initialise :: calls) =
      .ok (.done :: calls.map (answer (disk c.drives d)), c') := by
  obtain ⟨c₁, hinit, hserving⟩ := initialise_serving d hprompt
  obtain ⟨c', hcalls, -⟩ := hserving.serveAll (d := d) hprompt hfits
  refine ⟨c', ?_⟩
  simp only [PortBus.serveAll, PortBus.serve, hinit, hcalls, ok_bind]

/-- Drives whose blocks are filled with the low byte of their address, busy for three polls. -/
def filledDrives : AtaDrives :=
  ⟨fun _ address _ => address.setWidth 8, fun _ _ => 0, fun _ => 3⟩

/-- A channel that is held in reset, then a byte-wise and a word-wise read. -/
theorem driver_is_disk_filled : ∃ c', (AtaChannel.bus (Ata.mk 0 0).deviceOffset).serveAll ⟨0, 0⟩
    ⟨filledDrives, 0, 9, true, 0, 0, 0, 0, 0, []⟩ [.initialise, .readU8 5, .readU16 2 7] =
      .ok ([.done, answer (disk filledDrives ⟨0, 0⟩) (.readU8 5),
        answer (disk filledDrives ⟨0, 0⟩) (.readU16 2 7)], c') := by
  refine driver_is_disk ⟨0, 0⟩ ⟨filledDrives, 0, 9, true, 0, 0, 0, 0, 0, []⟩
    (fun _ => show 3 < 12 by decide) [.readU8 5, .readU16 2 7] fun call hcall => ?_
  rw [List.mem_pair] at hcall
  rcases hcall with rfl | rfl
  · trivial
  · exact ⟨by decide, by decide, by decide⟩

end AtaChannel

end Muk
