import Muk.Fs.Fat16

/-!
# The geometry of a volume

A FAT16 boot sector has the parameters of the volume as unsigned little-endian numbers at
fixed offsets. `open` reads some of them as signed numbers and two of them at other
offsets, and the sectors of the root directory and of the data are computed from a
constant.
-/

namespace Muk

namespace FAT16

/-- The unsigned 16-bit number at an offset of a boot sector. -/
def field16 (b : Sector) (offset : Fin 512) : ℕ := (b offset).toNat + 256 * (b (offset + 1)).toNat

/-- The first sector after the reserved sectors and the allocation tables. -/
def rootStart (b : Sector) : ℕ := field16 b 14 + (b 16).toNat * field16 b 22

/-- The first sector of a cluster. -/
def clusterStart (b : Sector) (c : BitVec 16) : ℕ :=
  rootStart b + field16 b 17 * 32 / 512 + (c.toNat - 2) * (b 13).toNat

/-- The geometry of a device is that of a boot sector. -/
structure GeometryOf (fs : FAT16) (b : Sector) : Prop where
  sectorSize : fs.headerInfo.sectorSize.toNat = field16 b 11
  secPerCluster : fs.headerInfo.secPerCluster = (b 13).toNat
  numReservedSectors : fs.headerInfo.numReservedSectors = field16 b 14
  numFATs : fs.headerInfo.numFATs = (b 16).toNat
  numDirectories : fs.headerInfo.numDirectories.toNat = field16 b 17
  numSectors : fs.headerInfo.numSectors.toNat = field16 b 19
  numSectorsPerFAT : fs.headerInfo.numSectorsPerFAT.toNat = field16 b 22
  /-- The root directory is behind the allocation tables. -/
  root : rootSector.toNat = rootStart b
  /-- Each cluster of a chain is mapped to its first sector. -/
  clusters : ∀ start chain, fs.getFAT.fat.walk start = .ok chain →
    ∃ sectors, fs.walkSectors start = .ok (sectors, fs.getFAT) ∧
      List.Forall₂ (fun c (sector : ℤ) => 2 ≤ c.toNat → sector = clusterStart b c) chain sectors

/-- The boot sectors whose geometry is read as it is. -/
structure GeometryFits (b : Sector) : Prop where
  reserved_lt : field16 b 14 < 0x8000
  clusterSize_eq : b 13 = b 16
  total_lt : field16 b 19 < 0x8000
  media_eq : b 21 = b 22
  high_eq : b 22 = b 23
  root_eq : rootStart b = 512

/-- What every FAT16 volume has: an allocation table, and a media descriptor that is one. -/
structure ValidVolume (b : Sector) : Prop where
  tables_pos : 1 ≤ (b 16).toNat
  media_ge : 0xF0 ≤ (b 21).toNat

variable {fs : FAT16} {b : Sector}

/-- Opening an accepted disk reads its header and leaves the device as it is. -/
theorem openDevice_info (h : fs.openDevice.1 = true) :
    fs.openDevice.2.headerInfo = readHeader (fs.device 0) ∧ fs.openDevice.2.device = fs.device := by
  unfold openDevice at h ⊢
  simp only at h ⊢
  split_ifs at h ⊢
  exact ⟨rfl, rfl⟩

/-- The signed number is the unsigned one below `0x8000`. -/
theorem to16bit_toInt_eq_iff (b0 b1 : Byte) :
    (Converter.to16bit b0 b1).toInt = ((b0.toNat + 256 * b1.toNat : ℕ) : ℤ) ↔
      b0.toNat + 256 * b1.toNat < 0x8000 := by
  have h0 := b0.isLt
  have h1 := b1.isLt
  rw [BitVec.toInt_eq_toNat_cond, Converter.to16bit_toNat]
  split_ifs <;> omega

/-- The number of two bytes survives the extension to a signed word exactly if it is below
`0x8000`. -/
theorem to16bit_signExtend_eq_iff (b0 b1 : Byte) :
    ((Converter.to16bit b0 b1).signExtend 32).toNat = b0.toNat + 256 * b1.toNat ↔
      b0.toNat + 256 * b1.toNat < 0x8000 := by
  have h0 := b0.isLt
  have h1 := b1.isLt
  rw [BitVec.toNat_signExtend, BitVec.toNat_setWidth, BitVec.msb_eq_decide,
    Converter.to16bit_toNat]
  simp only [decide_eq_true_eq]
  split_ifs <;> omega

/-- Two bytes read one byte early are the number at the offset only if all three agree. -/
theorem field16_shift_iff (b0 b1 b2 : Byte) :
    b0.toNat + 256 * b1.toNat = b1.toNat + 256 * b2.toNat ↔ b0 = b1 ∧ b1 = b2 := by
  have h0 := b0.isLt
  have h1 := b1.isLt
  have h2 := b2.isLt
  rw [← BitVec.toNat_inj, ← BitVec.toNat_inj]
  omega

/-- With 512-byte sectors the first data sector is computed without overflow. -/
theorem dataStart_eq {info : FATHeader} (hsize : info.sectorSize.toNat = 512) :
    (dataStart info).toNat = 512 + info.numDirectories.toNat * 32 / 512 := by
  have hlt := info.numDirectories.isLt
  rw [dataStart, hsize, BitVec.toNat_ofNat]
  omega

/-- The first sector of a cluster as it is computed, with the root directory at 512. -/
theorem sectorIndex_readHeader (hsize : field16 b 11 = 512) (c : BitVec 16) :
    sectorIndex (readHeader b) c =
      ((c.toNat : ℤ) - 2) * (b 13).toNat + (512 + field16 b 17 * 32 / 512 : ℕ) := by
  have hsector : (readHeader b).sectorSize.toNat = 512 := (Converter.to16bit_toNat _ _).trans hsize
  have hdirectories : (readHeader b).numDirectories.toNat = field16 b 17 :=
    Converter.to16bit_toNat _ _
  rw [sectorIndex, dataStart_eq hsector, hdirectories]
  rfl

/-- It is as far from the first sector of the cluster as 512 is from the root directory. -/
theorem sectorIndex_add_rootStart (hsize : field16 b 11 = 512) {c : BitVec 16} (hc : 2 ≤ c.toNat) :
    sectorIndex (readHeader b) c + rootStart b = clusterStart b c + 512 := by
  have hoffset : ((c.toNat : ℤ) - 2) * (b 13).toNat = ((c.toNat - 2) * (b 13).toNat : ℕ) := by
    rw [Int.natCast_mul, Int.natCast_sub hc]
    rfl
  rw [sectorIndex_readHeader hsize, clusterStart, hoffset]
  omega

/-- Where the root directory is at 512, this is the first sector of the cluster. -/
theorem sectorIndex_eq_clusterStart (hsize : field16 b 11 = 512) (hroot : rootStart b = 512)
    {c : BitVec 16} (hc : 2 ≤ c.toNat) : sectorIndex (readHeader b) c = clusterStart b c := by
  have hsum := sectorIndex_add_rootStart hsize hc
  omega

/-- Where the root directory is at 512, every cluster of a chain is mapped to its first
sector. -/
theorem clusters_eq (hinfo : fs.headerInfo = readHeader b) (hsize : field16 b 11 = 512)
    (hroot : rootStart b = 512) (start : BitVec 16) (chain : List (BitVec 16))
    (hwalk : fs.getFAT.fat.walk start = .ok chain) :
    ∃ sectors, fs.walkSectors start = .ok (sectors, fs.getFAT) ∧
      List.Forall₂
        (fun c (sector : ℤ) => 2 ≤ c.toNat → sector = clusterStart b c) chain sectors := by
  have hne : fs.getFAT.headerInfo.sectorSize ≠ 0 := by
    intro hzero
    have hsector : (readHeader b).sectorSize.toNat = 512 :=
      (Converter.to16bit_toNat _ _).trans hsize
    rw [← hinfo] at hsector
    have : fs.headerInfo.sectorSize.toNat = 0 := congrArg BitVec.toNat hzero
    omega
  refine ⟨chain.map (sectorIndex fs.headerInfo), ?_, ?_⟩
  · simp only [walkSectors, hwalk, bind, Except.bind, if_neg hne]
    rfl
  · rw [List.forall₂_map_right_iff, List.forall₂_same, hinfo]
    exact fun c _ hc => sectorIndex_eq_clusterStart hsize hroot hc

/-- **The geometry is read as it is only for these boot sectors.** For every boot sector
that `open` accepts, with 512-byte sectors: each parameter is the unsigned number at its
offset, and the root directory and the clusters are where it says, if and only if the
fields with sign are below `0x8000`, the fields read elsewhere agree with those there, and
the root directory starts at sector 512. No valid volume has such a boot sector. -/
theorem geometry_iff (haccept : fs.openDevice.1 = true) (hsize : field16 (fs.device 0) 11 = 512) :
    (GeometryOf fs.openDevice.2 (fs.device 0) ↔ GeometryFits (fs.device 0)) ∧
      (ValidVolume (fs.device 0) → ¬ GeometryOf fs.openDevice.2 (fs.device 0)) := by
  obtain ⟨hinfo, -⟩ := openDevice_info haccept
  have hiff : GeometryOf fs.openDevice.2 (fs.device 0) ↔ GeometryFits (fs.device 0) := by
    constructor
    · rintro ⟨_, _, hreserved, htables, _, htotal, hperFAT, hroot, _⟩
      rw [hinfo] at hreserved htables htotal hperFAT
      rw [readHeader] at hreserved htables htotal hperFAT
      obtain ⟨hmedia, hhigh⟩ :=
        (field16_shift_iff _ _ _).mp ((Converter.to16bit_toNat _ _).symm.trans hperFAT)
      exact {
        reserved_lt := (to16bit_toInt_eq_iff _ _).mp hreserved
        clusterSize_eq := BitVec.eq_of_toNat_eq (Int.ofNat_inj.mp htables)
        total_lt := (to16bit_signExtend_eq_iff _ _).mp htotal
        media_eq := hmedia
        high_eq := hhigh
        root_eq := hroot.symm }
    · intro hfits
      have hperFAT := (field16_shift_iff _ _ _).mpr ⟨hfits.media_eq, hfits.high_eq⟩
      exact {
        sectorSize := by rw [hinfo]; exact Converter.to16bit_toNat _ _
        secPerCluster := by rw [hinfo]; rfl
        numReservedSectors := by
          rw [hinfo]
          exact (to16bit_toInt_eq_iff _ _).mpr hfits.reserved_lt
        numFATs := by rw [hinfo, readHeader, hfits.clusterSize_eq]
        numDirectories := by rw [hinfo]; exact Converter.to16bit_toNat _ _
        numSectors := by
          rw [hinfo]
          exact (to16bit_signExtend_eq_iff _ _).mpr hfits.total_lt
        numSectorsPerFAT := by
          rw [hinfo]
          exact (Converter.to16bit_toNat _ _).trans hperFAT
        root := hfits.root_eq.symm
        clusters := clusters_eq hinfo hsize hfits.root_eq }
  refine ⟨hiff, fun hvalid hgeometry => ?_⟩
  have hfits := hiff.mp hgeometry
  have hmedia := hvalid.media_ge
  rw [hfits.media_eq] at hmedia
  have hroot := hfits.root_eq
  have htable := Nat.mul_le_mul hvalid.tables_pos (le_refl (field16 (fs.device 0) 22))
  have hhigh : (fs.device 0 22).toNat = (fs.device 0 (22 + 1)).toNat :=
    congrArg BitVec.toNat hfits.high_eq
  rw [rootStart] at hroot
  have hperFAT : field16 (fs.device 0) 22 =
      (fs.device 0 22).toNat + 256 * (fs.device 0 (22 + 1)).toNat := rfl
  omega

/-- A boot sector from its jump instruction on, with what follows the name of the system. -/
def bootSector (parameters : List Byte) : Sector := fun i =>
  ([0xEB, 0x3C, 0x90, 0x6D, 0x75, 0x6B, 0x20, 0x20, 0x20, 0x20, 0x20] ++ parameters).getD i 0

/-- 512 reserved sectors, and a table of no sectors. -/
def emptyTables : FAT16 :=
  ofDisk fun _ => bootSector [0x00, 0x02, 0x01, 0x00, 0x02, 0x01, 0x00, 0x02]

/-- On a disk with empty tables the geometry is the right one. -/
theorem geometry_emptyTables : GeometryOf emptyTables.openDevice.2 (emptyTables.device 0) := by
  have hfits : GeometryFits (emptyTables.device 0) := by constructor <;> decide
  exact (geometry_iff (by decide) (by decide)).1.mpr hfits

/-- A volume of 32,768 sectors in clusters of four, with two tables of 32 sectors each after
the boot sector. -/
def usualVolume : FAT16 := ofDisk fun _ => bootSector
  [0x00, 0x02, 0x04, 0x01, 0x00, 0x02, 0x00, 0x02, 0x00, 0x80, 0xF8, 0x20, 0x00]

/-- The number of tables, the number of sectors, the size of a table and the sector of the
root directory are all wrong. -/
theorem geometry_usualVolume : usualVolume.openDevice.1 = true ∧
    field16 (usualVolume.device 0) 11 = 512 ∧ ValidVolume (usualVolume.device 0) ∧
    ¬ GeometryOf usualVolume.openDevice.2 (usualVolume.device 0) ∧
    usualVolume.openDevice.2.headerInfo.numFATs = 4 ∧
    usualVolume.openDevice.2.headerInfo.numSectors = 0xFFFF8000 ∧
    usualVolume.openDevice.2.headerInfo.numSectorsPerFAT = 0x20F8 ∧
    rootStart (usualVolume.device 0) = 65 := by
  refine ⟨by decide, by decide, by constructor <;> decide, fun h => ?_, by decide, by decide,
    by decide, by decide⟩
  exact absurd h.numSectorsPerFAT (by decide)

end FAT16

end Muk
