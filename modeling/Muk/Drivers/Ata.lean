import Muk.Lib.Arrays
import Muk.Lib.ByteMemory

/-!
# The disk driver

A block is read as 256 words from the data port. `read_u16` returns the words, and `read_u8`
splits them into bytes. The buffers are lists of cells, which hold nothing at first where the
code does not initialise them. The driver runs on any bus that answers the instructions for ports.
Here it is run on ports that deliver streams.
-/

namespace Muk

/-- The number of a port, or a word that is read from one. -/
abbrev Word16 := BitVec 16

/-- The ports: the streams that each delivers, how much has been read of them, and what was
written. -/
structure Ports where
  status : Word16 → ℕ → Byte
  words : Word16 → ℕ → Word16
  statusRead : ℕ
  wordsRead : ℕ
  written : List (Word16 × Byte)

namespace Ports

/-- `inportb` -/
def inportb (s : Ports) (port : Word16) : Byte × Ports :=
  (s.status port s.statusRead, { s with statusRead := s.statusRead + 1 })

/-- `inports` -/
def inports (s : Ports) (port : Word16) : Word16 × Ports :=
  (s.words port s.wordsRead, { s with wordsRead := s.wordsRead + 1 })

/-- `outportb` -/
def outportb (s : Ports) (port : Word16) (data : Byte) : Ports :=
  { s with written := s.written ++ [(port, data)] }

end Ports

/-- What the instructions for ports do to the state of the devices. -/
structure PortBus (σ : Type) where
  inportb : σ → Word16 → Byte × σ
  inports : σ → Word16 → Word16 × σ
  outportb : σ → Word16 → Byte → σ

/-- The bus of ports that deliver streams. -/
def Ports.bus : PortBus Ports := ⟨Ports.inportb, Ports.inports, Ports.outportb⟩

/-- On the bus of streams, a word is read from the stream of its port. -/
@[simp] theorem Ports.bus_inports (s : Ports) (port : Word16) :
    Ports.bus.inports s port = s.inports port := rfl

/-- The cells of a buffer. -/
abbrev PioBuffer (α : Type) := List (Option α)

namespace PioBuffer

variable {α : Type}

/-- `buffer[i]` -/
def get (buffer : PioBuffer α) (i : ℕ) : Except ArrayFault α :=
  match buffer[i]? with
  | none => .error .outOfBounds
  | some none => .error .noElement
  | some (some a) => .ok a

/-- `buffer[i] = a` -/
def put (buffer : PioBuffer α) (i : ℕ) (a : α) : Except ArrayFault (PioBuffer α) :=
  if i < buffer.length then .ok (buffer.set i (some a)) else .error .outOfBounds

/-- What a buffer holds after an assignment. -/
theorem put_spec {buffer : PioBuffer α} {i : ℕ} (a : α) (hi : i < buffer.length) :
    ∃ buffer', put buffer i a = .ok buffer' ∧ buffer'.length = buffer.length ∧
      buffer'[i]? = some (some a) ∧ ∀ j ≠ i, buffer'[j]? = buffer[j]? :=
  ⟨_, if_pos hi, List.length_set, List.getElem?_set_self hi,
    fun _ hj => List.getElem?_set_ne hj.symm⟩

end PioBuffer

/-- `ATA`: the bus and the drive on it. -/
structure Ata where
  bus : Fin 2
  drive : Fin 2

namespace Ata

variable (d : Ata)

/-- `device_offsets[bus][drive]` -/
def deviceOffset : Word16 :=
  match d.bus, d.drive with
  | 0, 0 => 0x1F0
  | 0, 1 => 0x170
  | 1, 0 => 0x1E8
  | 1, 1 => 0x168

/-- The port with the data. -/
def dataPort : Word16 := d.deviceOffset + 0

/-- `ATA_STATUS_DRQ` and `ATA_STATUS_RDY` -/
def statusDrq : Byte := 0x08

def statusRdy : Byte := 0x40

/-- `ATA_STATUS_BSY` -/
def statusBsy : Byte := 0x80

/-- `ATA_COMMAND_READ` -/
def commandRead : Byte := 0x20

/-- The loop that splits words into bytes. -/
def splitWords (bufferShort : PioBuffer Word16) (buffer : PioBuffer Byte) :
    Except ArrayFault (PioBuffer Byte) :=
  forLoop (fun i buffer => do
    let word ← bufferShort.get i
    let buffer ← buffer.put (i * 2) (word.setWidth 8)
    buffer.put (i * 2 + 1) ((word >>> 8 &&& 0xFF).setWidth 8)) 0 256 buffer

end Ata

namespace PortBus

variable {σ : Type} (bus : PortBus σ) (d : Ata)

/-- The loop of `wait`, which gives up after some polls. -/
def waitLoop (mask waitForState : Byte) : ℕ → σ → Bool × σ
  | 0, s => (false, s)
  | polls + 1, s =>
    let (state, s) := bus.inportb s (d.deviceOffset + 7)
    if state &&& mask = waitForState then (true, s) else waitLoop mask waitForState polls s

/-- `ATA::wait`, but for the time between two polls. -/
def wait (s : σ) (mask waitForState : Byte) : Bool × σ :=
  bus.waitLoop d mask waitForState 12 s

/-- `ATA::prepare` -/
def prepare (s : σ) (command : Byte) (numBlocks offset : Word) : Bool × σ :=
  let base := d.deviceOffset
  let flags : Word := 0x80 ||| 0x40 ||| 0x20
  let flags := if d.drive.val = 1 then flags ||| 0x10 else flags
  let flags := flags ||| (offset.sshiftRight 24 &&& 0xFF)
  let (_, s) := bus.wait d s (Ata.statusBsy ||| Ata.statusRdy) Ata.statusRdy
  let s := bus.outportb s (base + 0x206) 0
  let s := bus.outportb s (base + 2) (numBlocks.setWidth 8)
  let s := bus.outportb s (base + 3) (offset.setWidth 8)
  let s := bus.outportb s (base + 4) ((offset.sshiftRight 8 &&& 0xFF).setWidth 8)
  let s := bus.outportb s (base + 5) ((offset.sshiftRight 16 &&& 0xFF).setWidth 8)
  let s := bus.outportb s (base + 6) (flags.setWidth 8)
  let s := bus.outportb s (base + 7) command
  (true, s)

/-- The loop that reads a block into the words from `blockOffset` on. -/
def readBlock (blockOffset : Word) (s : σ × PioBuffer Word16) :
    Except ArrayFault (σ × PioBuffer Word16) :=
  forLoop (fun i s => do
    let (word, ports) := bus.inports s.1 d.dataPort
    let buffer ← s.2.put (blockOffset + BitVec.ofNat 32 i).toNat word
    .ok (ports, buffer)) 0 256 s

/-- A pass of the loop of `read_u16`. -/
def blockU16 (block : ℕ) (s : σ × PioBuffer Word16) : Except ArrayFault (σ × PioBuffer Word16) :=
  let (_, ports) := bus.wait d s.1 Ata.statusDrq Ata.statusDrq
  let blockOffset := BitVec.ofNat 32 block * 512#32 / 2#32
  bus.readBlock d blockOffset (ports, s.2)

/-- `ATA::read_u16` -/
def readU16 (s : σ) (numBlocks offset : Word) : Except ArrayFault (PioBuffer Word16 × σ) := do
  let buffer := List.replicate (numBlocks * 512#32 / 2#32).toNat none
  let (_, s) := bus.prepare d s Ata.commandRead numBlocks offset
  let (s, buffer) ← forLoop (bus.blockU16 d) 0 numBlocks.toNat (s, buffer)
  .ok (buffer, s)

/-- A pass of the loop of `read_u8`. -/
def blockU8 (block : ℕ) (s : σ × PioBuffer Word16 × PioBuffer Byte) :
    Except ArrayFault (σ × PioBuffer Word16 × PioBuffer Byte) := do
  let (_, ports) := bus.wait d s.1 Ata.statusDrq Ata.statusDrq
  let blockOffset := BitVec.ofNat 32 block * 512#32
  let (ports, bufferShort) ← bus.readBlock d blockOffset (ports, s.2.1)
  let buffer ← Ata.splitWords bufferShort s.2.2
  .ok (ports, bufferShort, buffer)

/-- `ATA::read_u8` -/
def readU8 (s : σ) (numBlocks offset : Word) : Except ArrayFault (PioBuffer Byte × σ) := do
  let buffer := List.replicate (numBlocks * 512#32).toNat none
  let bufferShort := List.replicate (numBlocks * 512#32 / 2#32).toNat (some 0)
  let (_, s) := bus.prepare d s Ata.commandRead numBlocks offset
  let (s, _, buffer) ← forLoop (bus.blockU8 d) 0 numBlocks.toNat (s, bufferShort, buffer)
  .ok (buffer, s)

end PortBus

namespace Ata

variable (d : Ata)

/-- `ATA::read_u16` on ports that deliver streams. -/
def readU16 (s : Ports) (numBlocks offset : Word) :
    Except ArrayFault (PioBuffer Word16 × Ports) :=
  Ports.bus.readU16 d s numBlocks offset

/-- `ATA::read_u8` on ports that deliver streams. -/
def readU8 (s : Ports) (numBlocks offset : Word) : Except ArrayFault (PioBuffer Byte × Ports) :=
  Ports.bus.readU8 d s numBlocks offset

/-! ## What the ports deliver -/

variable {d} {s s' t : Ports} {n k : ℕ} {numBlocks offset : Word}

/-- The same words are still to come from the ports. -/
def SameWords (s s' : Ports) : Prop := s'.words = s.words ∧ s'.wordsRead = s.wordsRead

/-- A write to a port takes no word from the data port. -/
theorem SameWords.outportb (h : SameWords s t) (port : Word16) (data : Byte) :
    SameWords s (t.outportb port data) := h

/-- The polls of `wait` read the status and take no word. -/
theorem waitLoop_same (mask waitForState : Byte) (polls : ℕ) (s : Ports) :
    SameWords s (Ports.bus.waitLoop d mask waitForState polls s).2 := by
  induction polls generalizing s with
  | zero => exact ⟨rfl, rfl⟩
  | succ polls ih =>
    simp only [PortBus.waitLoop]
    split_ifs
    · exact ⟨rfl, rfl⟩
    · exact ih (s.inportb _).2

/-- Selecting the drive and sending the command takes no word. -/
theorem prepare_same (command : Byte) (numBlocks offset : Word) (s : Ports) :
    SameWords s (Ports.bus.prepare d s command numBlocks offset).2 := by
  simp only [PortBus.prepare]
  iterate 7 apply SameWords.outportb
  exact waitLoop_same _ _ _ s

/-- Word number `k` of those that are to come. -/
def nextWord (d : Ata) (s : Ports) (k : ℕ) : Word16 := s.words d.dataPort (s.wordsRead + k)

/-- The first `k` of those words were read into the first cells of a buffer. -/
structure Filled (d : Ata) (s : Ports) (n k : ℕ) (now : Ports × PioBuffer Word16) : Prop where
  words : now.1.words = s.words
  read : now.1.wordsRead = s.wordsRead + k
  length : now.2.length = n
  cells : ∀ j < k, now.2[j]? = some (some (d.nextWord s j))

/-- Waiting between two blocks leaves the words that were read where they are. -/
theorem Filled.wait {buffer : PioBuffer Word16} (h : Filled d s n k (t, buffer))
    (mask waitForState : Byte) :
    Filled d s n k ((Ports.bus.wait d t mask waitForState).2, buffer) := by
  obtain ⟨hwords, hread⟩ := waitLoop_same (d := d) mask waitForState 12 t
  exact ⟨hwords.trans h.words, hread.trans h.read, h.length, h.cells⟩

/-- The loop fills the cells of its block. -/
theorem Filled.readBlock {now : Ports × PioBuffer Word16} {blockOffset : Word}
    (h : Filled d s n k now) (hoffset : blockOffset.toNat = k) (hroom : k + 256 ≤ n)
    (hn : n < 2 ^ 32) :
    ∃ next, Ports.bus.readBlock d blockOffset now = .ok next ∧ Filled d s n (k + 256) next := by
  refine forLoop_invariant (fun i => Filled d s n (k + i)) h fun i hi now h => ?_
  have hplace : (blockOffset + BitVec.ofNat 32 (0 + i)).toNat = k + i := by
    rw [Nat.zero_add, BitVec.toNat_add, toNat_ofNat_of_lt (by omega), hoffset,
      Nat.mod_eq_of_lt (by omega)]
  obtain ⟨buffer, hput, hlength, hcell, hother⟩ :=
    PioBuffer.put_spec (now.1.inports d.dataPort).1 (by rw [h.length]; omega : k + i < now.2.length)
  refine ⟨((now.1.inports d.dataPort).2, buffer), ?_, h.words, ?_, hlength.trans h.length,
    fun j hj => ?_⟩
  · simp only [Ports.bus_inports, hplace, hput, ok_bind]
  · simp only [Ports.inports, h.read]
    omega
  · by_cases hlast : j = k + i
    · rw [hlast, hcell, nextWord, Ports.inports, h.words, h.read]
    · rw [hother j hlast]
      exact h.cells j (by omega)

/-- The number of words in the buffers. -/
theorem words_size (numBlocks : Word) :
    (numBlocks * 512#32 / 2#32).toNat = numBlocks.toNat % 2 ^ 23 * 256 := by
  simp only [BitVec.toNat_udiv, BitVec.toNat_mul, BitVec.toNat_ofNat, Nat.reducePow, Nat.reduceMod]
  omega

/-- **The words are read in their order**, for any number of blocks that a buffer can have. -/
theorem readU16_spec (d : Ata) (s : Ports) (offset : Word) (hn : numBlocks.toNat < 2 ^ 23) :
    ∃ buffer s', d.readU16 s numBlocks offset = .ok (buffer, s') ∧
      buffer.length = numBlocks.toNat * 256 ∧
      ∀ k < numBlocks.toNat * 256, buffer[k]? = some (some (d.nextWord s k)) := by
  obtain ⟨hwords, hread⟩ := prepare_same (d := d) commandRead numBlocks offset s
  obtain ⟨⟨s', buffer⟩, hrun, hfilled⟩ : ∃ next, forLoop (Ports.bus.blockU16 d) 0 numBlocks.toNat
      ((Ports.bus.prepare d s commandRead numBlocks offset).2,
        List.replicate (numBlocks * 512#32 / 2#32).toNat none) = .ok next ∧
      Filled d s (numBlocks.toNat * 256) (numBlocks.toNat * 256) next := by
    refine forLoop_invariant (fun block => Filled d s (numBlocks.toNat * 256) (block * 256))
      ⟨hwords, hread.trans (by omega),
        by rw [List.length_replicate, words_size, Nat.mod_eq_of_lt hn], fun j hj => by omega⟩ ?_
    rintro block hblock ⟨now, buffer⟩ h
    have hoffset : (BitVec.ofNat 32 (0 + block) * 512#32 / 2#32).toNat = block * 256 := by
      have hlt : block < 2 ^ 32 := by omega
      rw [Nat.zero_add, words_size, toNat_ofNat_of_lt hlt, Nat.mod_eq_of_lt (by omega)]
    obtain ⟨next, hnext, hfilled⟩ :=
      (h.wait statusDrq statusDrq).readBlock hoffset (by omega) (by omega)
    rw [← Nat.succ_mul] at hfilled
    exact ⟨next, hnext, hfilled⟩
  refine ⟨buffer, s', ?_, hfilled.length, hfilled.cells⟩
  simp only [readU16, PortBus.readU16, hrun, ok_bind]

/-! ## Bytes -/

/-- The loop that splits words takes a block of them, the first one, to its bytes. -/
theorem splitWords_spec {bufferShort : PioBuffer Word16} {buffer : PioBuffer Byte}
    {word : ℕ → Word16} (hwords : ∀ k < 256, bufferShort[k]? = some (some (word k)))
    (hroom : 512 ≤ buffer.length) :
    ∃ buffer', splitWords bufferShort buffer = .ok buffer' ∧ buffer'.length = buffer.length ∧
      ∀ k < 256, buffer'[2 * k]? = some (some ((word k).extractLsb' 0 8)) ∧
        buffer'[2 * k + 1]? = some (some ((word k).extractLsb' 8 8)) := by
  refine forLoop_invariant (fun i (buffer' : PioBuffer Byte) => buffer'.length = buffer.length ∧
      ∀ k < i, buffer'[2 * k]? = some (some ((word k).extractLsb' 0 8)) ∧
        buffer'[2 * k + 1]? = some (some ((word k).extractLsb' 8 8)))
    ⟨rfl, fun k hk => absurd hk (Nat.not_lt_zero k)⟩ ?_
  rintro i hi now ⟨hlength, hbytes⟩
  have hget : PioBuffer.get bufferShort (0 + i) = .ok (word i) := by
    rw [Nat.zero_add, PioBuffer.get, hwords i hi]
  have hhigh : (word i >>> 8 &&& 0xFF).setWidth 8 = (word i).extractLsb' 8 8 := by
    apply BitVec.eq_of_toNat_eq
    rw [BitVec.toNat_setWidth, BitVec.toNat_and, BitVec.toNat_ushiftRight, BitVec.extractLsb'_toNat]
    change (_ &&& (2 ^ 8 - 1)) % 2 ^ 8 = _
    rw [Nat.and_two_pow_sub_one_eq_mod, Nat.mod_mod]
  have hlow : (word i).setWidth 8 = (word i).extractLsb' 0 8 := by
    apply BitVec.eq_of_toNat_eq
    rw [BitVec.toNat_setWidth, BitVec.extractLsb'_toNat, Nat.shiftRight_zero]
  obtain ⟨mid, hput, hmid, hcell, hother⟩ := PioBuffer.put_spec ((word i).setWidth 8)
    (by omega : (0 + i) * 2 < now.length)
  obtain ⟨next, hput', hnext, hcell', hother'⟩ := PioBuffer.put_spec
    ((word i >>> 8 &&& 0xFF).setWidth 8) (by omega : (0 + i) * 2 + 1 < mid.length)
  refine ⟨next, by simp only [hget, ok_bind, hput, hput'], hnext.trans (hmid.trans hlength),
    fun k hk => ?_⟩
  by_cases hlast : k = i
  · subst hlast
    have heven : 2 * k = (0 + k) * 2 := by omega
    rw [← hlow, ← hhigh, heven, hcell', hother' _ (by omega), hcell]
    exact ⟨rfl, rfl⟩
  · rw [hother' _ (by omega), hother' _ (by omega), hother _ (by omega), hother _ (by omega)]
    exact hbytes k (by omega)

/-- The two readers agree: they return buffers of one length, in bytes, and the bytes are those of
the words. -/
def ReadersAgree (d : Ata) (s : Ports) (numBlocks offset : Word) : Prop :=
  ∃ words s' bytes s'', d.readU16 s numBlocks offset = .ok (words, s') ∧
    d.readU8 s numBlocks offset = .ok (bytes, s'') ∧ bytes.length = numBlocks.toNat * 512 ∧
    ∀ k < numBlocks.toNat * 256, ∃ word, words[k]? = some (some word) ∧
      bytes[2 * k]? = some (some (word.extractLsb' 0 8)) ∧
      bytes[2 * k + 1]? = some (some (word.extractLsb' 8 8))

/-- The bytes of one block. -/
theorem readU8_single (d : Ata) (s : Ports) (offset : Word) :
    ∃ bytes s', d.readU8 s 1 offset = .ok (bytes, s') ∧ bytes.length = 512 ∧
      ∀ k < 256, bytes[2 * k]? = some (some ((d.nextWord s k).extractLsb' 0 8)) ∧
        bytes[2 * k + 1]? = some (some ((d.nextWord s k).extractLsb' 8 8)) := by
  obtain ⟨hwords, hread⟩ := prepare_same (d := d) commandRead 1 offset s
  have hinit : Filled d s 256 0 ((Ports.bus.prepare d s commandRead 1 offset).2,
      List.replicate (1#32 * 512#32 / 2#32).toNat (some 0)) :=
    ⟨hwords, hread, List.length_replicate, fun j hj => absurd hj (Nat.not_lt_zero j)⟩
  obtain ⟨⟨s', bufferShort⟩, hblock, hfilled⟩ :=
    (hinit.wait statusDrq statusDrq).readBlock
      (show (BitVec.ofNat 32 (0 + 0) * 512#32).toNat = 0 from rfl) (by omega) (by omega)
  have hroom : 512 ≤ (List.replicate (1#32 * 512#32).toNat none : PioBuffer Byte).length := by
    rw [List.length_replicate]
    decide
  obtain ⟨bytes, hsplit, hlength, hbytes⟩ := splitWords_spec hfilled.cells hroom
  rw [List.length_replicate] at hlength
  have hpass : Ports.bus.blockU8 d (0 + 0) ((Ports.bus.prepare d s commandRead 1 offset).2,
      List.replicate (1#32 * 512#32 / 2#32).toNat (some 0),
      List.replicate (1#32 * 512#32).toNat none) = .ok (s', bufferShort, bytes) := by
    simp only [PortBus.blockU8, hblock, ok_bind, hsplit]
  refine ⟨bytes, s', ?_, hlength, hbytes⟩
  have hloop : forLoop (Ports.bus.blockU8 d) 0 1 _ = .ok (s', bufferShort, bytes) :=
    (ok_bind _ _).trans hpass
  exact (congrArg (· >>= _) hloop).trans (ok_bind _ _)

/-- A block beyond the words of the buffer is not read. -/
theorem blockU8_error {block : ℕ} {s : Ports × PioBuffer Word16 × PioBuffer Byte}
    (hout : s.2.1.length ≤ (BitVec.ofNat 32 block * 512#32).toNat) :
    Ports.bus.blockU8 d block s = .error .outOfBounds := by
  have hfirst (ports : Ports) :
      Ports.bus.readBlock d (BitVec.ofNat 32 block * 512#32) (ports, s.2.1) =
      .error .outOfBounds := by
    refine forLoop_error (m := 1) ?_ (by omega)
    have hput (word : Word16) : PioBuffer.put s.2.1
        (BitVec.ofNat 32 block * 512#32 + BitVec.ofNat 32 (0 + 0)).toNat word =
          .error .outOfBounds := by
      apply if_neg
      rw [BitVec.add_zero]
      omega
    simp only [forLoop, ok_bind, Nat.add_zero, hput]
    rfl
  simp only [PortBus.blockU8, hfirst]
  rfl

/-- The loop over a block keeps the length of the buffer. -/
theorem readBlock_length {blockOffset : Word} {now next : Ports × PioBuffer Word16}
    (h : Ports.bus.readBlock d blockOffset now = .ok next) : next.2.length = now.2.length := by
  rw [PortBus.readBlock] at h
  refine forLoop_keeps (I := fun t => t.2.length = now.2.length) h rfl fun i _ t t' ht hpass => ?_
  obtain ⟨buffer, hput, hnext⟩ := bind_eq_ok.mp hpass
  obtain rfl := Except.ok.inj hnext
  rw [PioBuffer.put] at hput
  split_ifs at hput
  rw [← Except.ok.inj hput, List.length_set, ht]

/-- One block more leaves the length of the byte buffer as it is. -/
theorem blockU8_length {block : ℕ} {now next : Ports × PioBuffer Word16 × PioBuffer Byte}
    (h : Ports.bus.blockU8 d block now = .ok next) : next.2.1.length = now.2.1.length := by
  simp only [PortBus.blockU8, bind_eq_ok] at h
  obtain ⟨⟨ports, bufferShort⟩, hblock, buffer, -, hnext⟩ := h
  obtain rfl := Except.ok.inj hnext
  exact readBlock_length hblock

/-- With more than one block, some block is not within the words of the buffer. -/
theorem exists_block_out (hn : 2 ≤ numBlocks.toNat) : ∃ block < numBlocks.toNat,
    (numBlocks * 512#32 / 2#32).toNat ≤ (BitVec.ofNat 32 block * 512#32).toNat := by
  have hlt := numBlocks.isLt
  have hmod := Nat.mod_le numBlocks.toNat (2 ^ 23)
  -- The second block if there is room for one only, and the last one otherwise.
  refine ⟨if numBlocks.toNat % 2 ^ 23 = 1 then 1 else numBlocks.toNat % 2 ^ 23 - 1, ?_, ?_⟩
  · split_ifs <;> omega
  · simp only [words_size, BitVec.toNat_mul, BitVec.toNat_ofNat, Nat.reducePow, Nat.reduceMod]
    split_ifs <;> omega

/-- `read_u8` of more than one block leaves its buffers. -/
theorem readU8_error (d : Ata) (s : Ports) (offset : Word) (hn : 2 ≤ numBlocks.toNat) :
    ∃ e, d.readU8 s numBlocks offset = .error e := by
  obtain ⟨block, hblock, hout⟩ := exists_block_out hn
  obtain ⟨e, herror⟩ : ∃ e, forLoop (Ports.bus.blockU8 d) 0 numBlocks.toNat
      ((Ports.bus.prepare d s commandRead numBlocks offset).2,
        List.replicate (numBlocks * 512#32 / 2#32).toNat (some 0),
        List.replicate (numBlocks * 512#32).toNat none) = .error e := by
    cases hbefore : forLoop (Ports.bus.blockU8 d) 0 block
        ((Ports.bus.prepare d s commandRead numBlocks offset).2,
          List.replicate (numBlocks * 512#32 / 2#32).toNat (some 0),
          List.replicate (numBlocks * 512#32).toNat none) with
    | error e => exact ⟨e, forLoop_error hbefore (Nat.le_of_lt hblock)⟩
    | ok now =>
      have hlength := forLoop_keeps
        (I := fun now => now.2.1.length = (numBlocks * 512#32 / 2#32).toNat) hbefore
        List.length_replicate fun i _ t t' ht hpass => (blockU8_length hpass).trans ht
      refine ⟨.outOfBounds, forLoop_error (m := block + 1) ?_ hblock⟩
      rw [forLoop, hbefore, ok_bind, Nat.zero_add]
      exact blockU8_error (by rw [hlength]; exact hout)
  refine ⟨e, ?_⟩
  simp only [readU8, PortBus.readU8, herror]
  rfl

/-- **The readers agree** for one block only: the bytes of a second block would be read into words
that the buffer does not have. -/
theorem readersAgree_iff (d : Ata) (s : Ports) (numBlocks offset : Word) :
    d.ReadersAgree s numBlocks offset ↔ numBlocks.toNat ≤ 1 := by
  constructor
  · rintro ⟨-, -, bytes, s'', -, hbytes, -⟩
    by_contra hmany
    obtain ⟨e, herror⟩ := readU8_error d s offset (by omega : 2 ≤ numBlocks.toNat)
    rw [herror] at hbytes
    exact absurd hbytes (by simp)
  · intro hn
    obtain ⟨words, s', hwords, hlength, hword⟩ :=
      readU16_spec d s offset (by omega : numBlocks.toNat < 2 ^ 23)
    by_cases hzero : numBlocks.toNat = 0
    · obtain rfl : numBlocks = 0 := BitVec.eq_of_toNat_eq hzero
      exact ⟨words, s', [], _, hwords, rfl, rfl, fun k hk => absurd hk (Nat.not_lt_zero k)⟩
    · obtain rfl : numBlocks = 1 := BitVec.eq_of_toNat_eq (by change _ = 1; omega)
      obtain ⟨bytes, s'', hbytes, hsize, hbyte⟩ := readU8_single d s offset
      exact ⟨words, s', bytes, s'', hwords, hbytes, hsize, fun k hk =>
        ⟨d.nextWord s k, hword k hk, hbyte k hk⟩⟩

/-- Two blocks of the first drive, whose words are all zero. -/
theorem not_readersAgree_two : ¬ ReadersAgree { bus := 0, drive := 0 }
    { status := fun _ _ => statusRdy ||| statusDrq, words := fun _ _ => 0, statusRead := 0,
      wordsRead := 0, written := [] } 2 0 := by
  rintro ⟨-, -, bytes, s'', -, hbytes, -⟩
  obtain ⟨e, herror⟩ := readU8_error _ _ 0 (by decide : 2 ≤ (2#32).toNat)
  rw [show (2 : Word) = 2#32 from rfl, herror] at hbytes
  exact absurd hbytes (by simp)

end Ata

end Muk
