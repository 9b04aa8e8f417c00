import Mathlib.Data.Int.Notation
import Mathlib.Data.List.OfFn
import Muk.Lib.ByteMemory
import Muk.Lib.Chain
import Mathlib.Algebra.GroupWithZero.Nat

/-!
# FAT16 volumes

The state of a `FAT16` device, the boot sector that `open` reads, the allocation table
that `getFAT` loads and the chains that `walk` and `walkSectors` take from it. The disk
behind the device is a function from sector numbers to sectors.
-/

namespace Muk

/-- A sector of `ATA_BLOCKSIZE` bytes. -/
abbrev Sector := Fin 512 → Byte

/-- Numbers modulo the sector's size are offsets. -/
instance Sector.neZero : NeZero 512 := ⟨by decide⟩

/-- The bytes of a sector in order. -/
@[irreducible] def Sector.toList (s : Sector) : List Byte := List.ofFn s

/-- A sector has 512 bytes. -/
theorem Sector.length_toList (s : Sector) : s.toList.length = 512 := by
  unfold Sector.toList
  exact List.length_ofFn

/-- The bytes in order determine the sector. -/
theorem Sector.toList_injective : Function.Injective Sector.toList := by
  unfold Sector.toList
  exact List.ofFn_injective

/-- A byte is in the list of a sector exactly if the sector has it somewhere. -/
theorem Sector.mem_toList {s : Sector} {b : Byte} : b ∈ s.toList ↔ ∃ i, s i = b := by
  unfold Sector.toList
  exact List.mem_ofFn

/-- What `ATA::read_u8` reads for each `offset`. -/
abbrev Disk := ℤ → Sector

/-- How code of the file system can fail to return. -/
inductive FsFault where
  | divisionByZero
  | outOfBounds
  | diverges
  deriving DecidableEq, Repr

/-- `Converter::To_16bit` of two bytes. -/
def Converter.to16bit (b0 b1 : Byte) : BitVec 16 :=
  (b0.setWidth 32 ||| b1.setWidth 32 <<< 8).setWidth 16

/-- `Converter::To_32bit` of four bytes. -/
def Converter.to32bit (b0 b1 b2 b3 : Byte) : Word :=
  b0.setWidth 32 ||| b1.setWidth 32 <<< 8 ||| b2.setWidth 32 <<< 16 ||| b3.setWidth 32 <<< 24

/-- The converter reads 16 bits, least significant byte first. -/
theorem Converter.to16bit_eq (b0 b1 : Byte) : to16bit b0 b1 = b1 ++ b0 := by
  apply BitVec.eq_of_getLsbD_eq
  intro i hi
  simp only [to16bit, BitVec.getLsbD_setWidth, BitVec.getLsbD_or, BitVec.getLsbD_shiftLeft,
    BitVec.getLsbD_append]
  grind

/-- Two bytes make a number, the low byte first. -/
theorem Converter.to16bit_toNat (b0 b1 : Byte) :
    (to16bit b0 b1).toNat = b0.toNat + 256 * b1.toNat := by
  have h0 := b0.isLt
  rw [to16bit_eq, BitVec.toNat_append, Nat.shiftLeft_eq, Nat.or_comm, ← Nat.or_comm,
    Nat.mul_comm, ← Nat.two_pow_add_eq_or_of_lt h0]
  omega

/-- The converter reads 32 bits, least significant byte first. -/
theorem Converter.to32bit_eq (b0 b1 b2 b3 : Byte) : to32bit b0 b1 b2 b3 = ofBytes b3 b2 b1 b0 := by
  apply BitVec.eq_of_getLsbD_eq
  intro i hi
  simp only [to32bit, ofBytes, BitVec.getLsbD_setWidth, BitVec.getLsbD_or,
    BitVec.getLsbD_shiftLeft, BitVec.getLsbD_append, BitVec.getLsbD_cast]
  grind

/-- `FATHeader`, with the signedness and width of each field. -/
structure FATHeader where
  sectorSize : BitVec 16
  secPerCluster : ℤ
  numReservedSectors : ℤ
  numFATs : ℤ
  numSectorsPerFAT : BitVec 16
  numDirectories : BitVec 16
  numSectors : Word
  deriving DecidableEq

/-- `FileAllocationTable`: one sector of bytes. -/
structure FileAllocationTable where
  tableOffset : ℤ
  table : Sector

/-- The state of a `FAT16` device. -/
structure FAT16 where
  device : Disk
  headerBytes : Sector
  headerInfo : FATHeader
  fat : FileAllocationTable
  volumeSerial : Word

namespace FileAllocationTable

/-- The byte that `walk` takes as the next cluster. -/
def nextByte (fat : FileAllocationTable) (current : BitVec 16) : BitVec 16 :=
  (fat.table (Fin.ofNat 512 (current.toNat * 2))).setWidth 16

/-- The collected clusters of `walk`. Its loop reads the table at indexes below `0xF8 * 2`,
and if it is left at all, then within 248 passes. -/
def walk (fat : FileAllocationTable) (start : BitVec 16) : Except FsFault (List (BitVec 16)) :=
  match follow fat.nextByte (fun current => ¬ current < 0xF8) 0xF8 start with
  | some chain => .ok chain
  | none => .error .diverges

/-- `walk` returns the chain of bytes up to a byte from `0xF8` on, if there is one. -/
theorem walk_eq_ok_iff {fat : FileAllocationTable} {start : BitVec 16} {chain : List (BitVec 16)} :
    fat.walk start = .ok chain ↔
      Chain fat.nextByte (fun current => ¬ current < 0xF8) start chain := by
  have hinj : (fun c : BitVec 16 => c.toNat).Injective := fun _ _ h => BitVec.eq_of_toNat_eq h
  rw [← follow_eq_some_of_chain 0xF8 hinj (fun b hb => ?_) le_rfl]
  · rw [walk]
    cases follow fat.nextByte (fun current => ¬ current < 0xF8) 0xF8 start <;> simp
  · exact BitVec.lt_def.mp (not_not.mp hb)

/-- The clusters that `walk` returns are below `0xF8`. -/
theorem lt_of_walk {fat : FileAllocationTable} {start : BitVec 16} {chain : List (BitVec 16)}
    (h : fat.walk start = .ok chain) : ∀ c ∈ chain, c < 0xF8 :=
  fun c hc => not_not.mp ((walk_eq_ok_iff.mp h).not_stop c hc)

end FileAllocationTable

namespace FAT16

/-- The first three bytes of a boot sector that `open` accepts. -/
def header : List Byte := [0xEB, 0x3C, 0x90]

/-- The parameters that `open` takes from an accepted boot sector. -/
def readHeader (b : Sector) : FATHeader where
  sectorSize := Converter.to16bit (b 11) (b 12)
  secPerCluster := (b 13).toNat
  numReservedSectors := (Converter.to16bit (b 14) (b 15)).toInt
  numFATs := (b 13).toNat
  numDirectories := Converter.to16bit (b 17) (b 18)
  numSectors := (Converter.to16bit (b 19) (b 20)).signExtend 32
  numSectorsPerFAT := Converter.to16bit (b 21) (b 22)

/-- `FAT16::open`. -/
def openDevice (fs : FAT16) : Bool × FAT16 :=
  let fs := { fs with headerBytes := fs.device 0 }
  if [fs.headerBytes 0, fs.headerBytes 1, fs.headerBytes 2] = header then
    (true, { fs with
      headerInfo := readHeader fs.headerBytes
      volumeSerial := Converter.to32bit (fs.headerBytes 39) (fs.headerBytes 40)
        (fs.headerBytes 41) (fs.headerBytes 42) })
  else (false, fs)

/-- `FAT16::getFAT`: one sector, the first one after the reserved sectors. -/
def getFAT (fs : FAT16) : FAT16 :=
  { fs with fat := {
      tableOffset := fs.headerInfo.numReservedSectors
      table := fs.device fs.headerInfo.numReservedSectors } }

/-- The sector of the root directory, from which `readDirectory(path)` starts. -/
def rootSector : Word := 512

/-- The first data sector as `walkSectors` computes it, in an `uint16_t`. -/
def dataStart (info : FATHeader) : BitVec 16 :=
  BitVec.ofNat 16 (512 + info.numDirectories.toNat * 32 / info.sectorSize.toNat)

/-- The first sector of a cluster. -/
def sectorIndex (info : FATHeader) (cluster : BitVec 16) : ℤ :=
  (cluster.toNat - 2) * info.secPerCluster + (dataStart info).toNat

/-- `FAT16::walkSectors`: the sectors, and the device with its table loaded again. -/
def walkSectors (fs : FAT16) (startSector : BitVec 16) : Except FsFault (List ℤ × FAT16) := do
  let fs := fs.getFAT
  let chain ← fs.fat.walk startSector
  if fs.headerInfo.sectorSize = 0 then .error .divisionByZero
  else .ok (chain.map (sectorIndex fs.headerInfo), fs)

/-- `FAT16::read_u8`: whatever the number of bytes asked for, one sector. The byte offset
is an unsigned 32-bit number. -/
def readU8 (fs : FAT16) (offset : Word) : Sector := fs.device (offset.toNat / 512 : ℕ)

/-- A device with a disk and a usual geometry. -/
def ofDisk (device : Disk) : FAT16 where
  device := device
  headerBytes := device 0
  headerInfo := { sectorSize := 512, secPerCluster := 2, numReservedSectors := 1, numFATs := 2,
                  numSectorsPerFAT := 256, numDirectories := 512, numSectors := 65535 }
  fat := { tableOffset := 1, table := device 1 }
  volumeSerial := 0

end FAT16

end Muk
