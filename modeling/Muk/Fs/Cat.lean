import Muk.Drivers.Print
import Muk.Fs.Directory
import Muk.Fs.FatChain
import Muk.Fs.Geometry
import Muk.Lib.Pieces

/-!
# The contents of a file

`cat` prints one sector for each cluster that `walkSectors` finds, and all bytes of that
sector but those that are zero. What it should print are the bytes of the file: the sectors of
its clusters, up to its size. The two agree for the files without a zero byte whose clusters are
single sectors and which fill these, among the first 248 clusters of a volume with its data at the
usual place.
-/

namespace Muk

/-- `FileEntry`, as far as it is read. -/
structure FileEntry where
  location : Word
  size : Word
  deriving DecidableEq

/-- What `readFile` returns of a directory entry that it finds. The cluster is a signed
16-bit number and becomes an unsigned 32-bit one. -/
def FileEntry.of (e : DirectoryEntry) : FileEntry where
  location := e.location.signExtend 32
  size := e.fsize

/-- `FileEntry::nfile`. -/
def FileEntry.nfile : Word := -1

/-- How `cat` can fail to return. -/
inductive CatFault where
  | device (fault : FsFault)
  | print (fault : PrintFault)
  deriving DecidableEq

namespace FAT16

/-- The constructor `FAT16::FAT16`. -/
def mount (fs : FAT16) : FAT16 :=
  if fs.openDevice.1 then fs.openDevice.2.getFAT else fs.openDevice.2

/-- The inner loop of `cat`, which prints each byte with `"%c"`, for a stack with any contents. -/
def printChars (stack : Mem) : List Byte → Except PrintFault (List Byte)
  | [] => .ok []
  | b :: bytes => do
    let text ← terminalPrintf stack [percent, 0x63] [.int (b.signExtend 32)]
    let rest ← printChars stack bytes
    .ok (text ++ rest)

/-- What `cat` prints of a file: the bytes of the sector that `read_u8` reads for each sector in
the list. -/
def cat (fs : FAT16) (stack : Mem) (file : FileEntry) : Except CatFault (List Byte) :=
  if file.location ≠ FileEntry.nfile then do
    let (sectors, fs) ← (fs.walkSectors (file.location.setWidth 16)).mapError .device
    (printChars stack (sectors.flatMap fun sector =>
      (fs.readU8 (BitVec.ofInt 32 (sector * 0x200))).toList)).mapError .print
  else .ok []

/-- A boot sector of a volume with 512-byte sectors. -/
structure Volume (b : Sector) : Prop where
  accepted : [b 0, b 1, b 2] = header
  sectorSize : field16 b 11 = 512
  clusterSize_pos : 1 ≤ (b 13).toNat
  reserved_pos : 1 ≤ field16 b 14
  tables_pos : 1 ≤ (b 16).toNat

/-- The first sector of the data, behind the root directory. -/
def dataFirst (b : Sector) : ℕ := rootStart b + field16 b 17 * 32 / 512

/-- The sectors of some clusters. -/
def clusterSectors (b : Sector) (chain : List (BitVec 16)) : List ℤ :=
  chain.flatMap fun c => (List.range (b 13).toNat).map fun j => ((clusterStart b c + j : ℕ) : ℤ)

/-- The bytes in some sectors. -/
def bytesOf (disk : Disk) (sectors : List ℤ) : List Byte :=
  sectors.flatMap fun n => (disk n).toList

/-- The file of a directory entry: its chain has as many clusters as its size needs, and an
empty file has no first cluster. -/
structure FileOn (disk : Disk) (e : DirectoryEntry) (chain : List (BitVec 16)) : Prop where
  length_eq : chain.length =
    (e.fsize.toNat + 512 * (disk 0 13).toNat - 1) / (512 * (disk 0 13).toNat)
  empty : chain = [] → e.location = 0
  links : chain ≠ [] → Chain (tableEntry disk (field16 (disk 0) 14)) EndMark e.location chain
  clusters : ∀ c ∈ chain, 2 ≤ c.toNat ∧ c.toNat < 256 * field16 (disk 0) 22

/-- The bytes of a file: those of its clusters, as many as its size. -/
def fileContents (disk : Disk) (e : DirectoryEntry) (chain : List (BitVec 16)) : List Byte :=
  (bytesOf disk (clusterSectors (disk 0) chain)).take e.fsize.toNat

/-- The files that are printed as they are. -/
structure Printable (b : Sector) (e : DirectoryEntry) (chain : List (BitVec 16)) : Prop where
  size_pos : 0 < e.fsize.toNat
  root_eq : rootStart b = 512
  size_eq : e.fsize.toNat = 512 * chain.length
  single : (b 13).toNat = 1 ∨ chain.length = 1
  near : ∀ c ∈ chain, c < 0xF8

variable {fs : FAT16} {b : Sector} {e : DirectoryEntry} {chain : List (BitVec 16)}
  {disk : Disk} {stack : Mem}

/-- The loop prints the bytes that are not zero. -/
theorem printChars_eq (stack : Mem) (bytes : List Byte) :
    printChars stack bytes = .ok (bytes.filter (· ≠ 0)) := by
  induction bytes with
  | nil => rfl
  | cons b bytes ih =>
    rw [printChars, terminalPrintf_char, ok_bind, ih, ok_bind, List.filter_cons]
    by_cases hb : b = 0
    · rw [if_neg (not_not.mpr hb), if_neg (by simpa using hb)]
      rfl
    · rw [if_pos hb, if_pos (by simpa using hb)]
      rfl

/-- A cluster number that was extended and cut again is the same one. -/
theorem setWidth_signExtend (x : BitVec 16) : (x.signExtend 32).setWidth 16 = x := by
  apply BitVec.eq_of_toNat_eq
  have hlt := x.isLt
  rw [BitVec.toNat_setWidth, BitVec.toNat_signExtend, BitVec.toNat_setWidth]
  split_ifs <;> omega

/-- A cluster in the chain of a file is not the mark for a missing file. -/
theorem location_ne_nfile (h : e.location ≠ 0xFFFF) :
    (FileEntry.of e).location ≠ FileEntry.nfile := by
  intro heq
  have hwidth := congrArg (BitVec.setWidth 16) heq
  rw [FileEntry.of, setWidth_signExtend] at hwidth
  exact h hwidth

/-- The byte offset of a sector is turned back into its number. -/
theorem readU8_sector {n : ℤ} (hn : 0 ≤ n) (hlt : n < 2 ^ 23) :
    fs.readU8 (BitVec.ofInt 32 (n * 0x200)) = fs.device n := by
  obtain ⟨m, rfl⟩ := Int.eq_ofNat_of_zero_le hn
  rw [readU8, BitVec.toNat_ofInt]
  congr 1
  omega

/-- The geometry of an accepted volume. -/
theorem mount_info (h : Volume (fs.device 0)) :
    fs.mount.headerInfo = readHeader (fs.device 0) ∧ fs.mount.device = fs.device := by
  have hopen : fs.openDevice.1 = true := by
    unfold openDevice
    simp only
    rw [if_pos h.accepted]
  obtain ⟨hinfo, hdevice⟩ := openDevice_info hopen
  rw [mount, if_pos hopen]
  exact ⟨hinfo, hdevice⟩

/-- The sectors of clusters below `0xF8` are numbers that `read_u8` gets right. -/
theorem sectorIndex_bounds (hsize : field16 b 11 = 512) {c : BitVec 16} (hc : c < 0xF8) :
    0 ≤ sectorIndex (readHeader b) c ∧ sectorIndex (readHeader b) c < 2 ^ 23 := by
  have hc' : c.toNat < 248 := BitVec.lt_def.mp hc
  have hk := (b 13).isLt
  have hdirectories : field16 b 17 < 2 ^ 16 := by
    have h0 := (b 17).isLt
    have h1 := (b (17 + 1)).isLt
    rw [field16]
    omega
  have hlow : -2 * ((b 13).toNat : ℤ) ≤ ((c.toNat : ℤ) - 2) * (b 13).toNat :=
    Int.mul_le_mul_of_nonneg_right (by omega) (by omega)
  have hhigh : ((c.toNat : ℤ) - 2) * (b 13).toNat ≤ 246 * (b 13).toNat :=
    Int.mul_le_mul_of_nonneg_right (by omega) (by omega)
  rw [sectorIndex_readHeader hsize]
  omega

/-- The table that `getFAT` loads from a disk. -/
def loadedTable (disk : Disk) : FileAllocationTable where
  tableOffset := (readHeader (disk 0)).numReservedSectors
  table := disk (readHeader (disk 0)).numReservedSectors

/-- What `cat` prints are the first sectors of the clusters that `walk` finds, without zero
bytes. -/
theorem cat_eq_ok_iff (h : Volume (fs.device 0)) (hlocation : e.location ≠ 0xFFFF)
    {out : List Byte} : fs.mount.cat stack (.of e) = .ok out ↔
      ∃ found, (loadedTable fs.device).walk e.location = .ok found ∧
        out = (bytesOf fs.device
          (found.map (sectorIndex (readHeader (fs.device 0))))).filter (· ≠ 0) := by
  obtain ⟨hinfo, hdevice⟩ := mount_info h
  have htable : fs.mount.getFAT.fat = loadedTable fs.device := by
    rw [getFAT, loadedTable, hinfo, hdevice]
  have hsize : fs.mount.getFAT.headerInfo.sectorSize ≠ 0 := by
    intro hzero
    have hsector : (readHeader (fs.device 0)).sectorSize.toNat = 512 :=
      (Converter.to16bit_toNat _ _).trans h.sectorSize
    rw [← hinfo] at hsector
    have : fs.mount.headerInfo.sectorSize.toNat = 0 := congrArg BitVec.toNat hzero
    omega
  rw [cat, if_pos (location_ne_nfile hlocation)]
  simp only [FileEntry.of, setWidth_signExtend, walkSectors, htable, if_neg hsize, printChars_eq]
  cases hwalk : (loadedTable fs.device).walk e.location with
  | error err => simp [bind, Except.bind, Except.mapError]
  | ok found =>
    have hread : ∀ n ∈ found.map (sectorIndex (readHeader (fs.device 0))),
        (fs.mount.getFAT.readU8 (BitVec.ofInt 32 (n * 0x200))).toList = (fs.device n).toList := by
      intro n hn
      obtain ⟨c, hc, rfl⟩ := List.mem_map.mp hn
      obtain ⟨hnonneg, hlt⟩ :=
        sectorIndex_bounds h.sectorSize (FileAllocationTable.lt_of_walk hwalk c hc)
      rw [readU8_sector hnonneg hlt]
      exact congrArg (fun d : Disk => (d _).toList) hdevice
    have hinfo' : fs.mount.getFAT.headerInfo = readHeader (fs.device 0) := hinfo
    simp only [ok_bind, Except.mapError, hinfo', List.flatMap_congr hread, Except.ok.injEq]
    constructor
    · rintro rfl
      exact ⟨found, rfl, rfl⟩
    · rintro ⟨-, rfl, rfl⟩
      rfl

/-- The chain of a file has as many sectors as its clusters have together. -/
theorem length_clusterSectors : (clusterSectors b chain).length = (b 13).toNat * chain.length :=
  length_flatMap_pieces fun c => by rw [List.length_map, List.length_range]

/-- The sectors of a file are sectors of the data. -/
theorem clusterSectors_ge : ∀ x ∈ clusterSectors b chain, (dataFirst b : ℤ) ≤ x := by
  intro x hx
  obtain ⟨c, -, hc⟩ := List.mem_flatMap.mp hx
  obtain ⟨j, -, rfl⟩ := List.mem_map.mp hc
  rw [clusterStart, dataFirst]
  omega

/-- The first sectors of a file are those of its first cluster. -/
theorem clusterSectors_getElem {c : BitVec 16} {rest : List (BitVec 16)} {j : ℕ}
    (hj : j < (b 13).toNat) :
    (clusterSectors b (c :: rest))[j]? = some ((clusterStart b c + j : ℕ) : ℤ) := by
  rw [clusterSectors, List.flatMap_cons, List.getElem?_append_left (by simpa using hj),
    List.getElem?_map, List.getElem?_range hj]
  rfl

/-- With one sector to a cluster, the sectors of a file are the first sectors of its
clusters. -/
theorem clusterSectors_one (hk : (b 13).toNat = 1) :
    clusterSectors b chain = chain.map fun c => (clusterStart b c : ℤ) := by
  rw [clusterSectors, hk, List.map_eq_flatMap]
  rfl

/-- `cat` prints the bytes of the file exactly if none of them is zero, on every volume with the
boot sector and the file, whatever its data are. -/
def Prints (b : Sector) (e : DirectoryEntry) (chain : List (BitVec 16)) : Prop :=
  ∀ (fs : FAT16) (stack : Mem), fs.device 0 = b → FileOn fs.device e chain →
    (fs.mount.cat stack (.of e) = .ok (fileContents fs.device e chain) ↔
      0 ∉ fileContents fs.device e chain)

/-- The data of a volume come after its boot sector. -/
theorem Volume.dataFirst_pos (h : Volume b) : 0 < dataFirst b := by
  have hreserved := h.reserved_pos
  rw [dataFirst, rootStart]
  omega

/-- The allocation table is before the data. -/
theorem FileOn.table_lt (hfile : FileOn disk e chain) (hvolume : Volume (disk 0)) {c : BitVec 16}
    (hc : c ∈ chain) : field16 (disk 0) 14 + 2 * c.toNat / 512 < dataFirst (disk 0) := by
  have hentry := (hfile.clusters c hc).2
  have htables := Nat.mul_le_mul hvolume.tables_pos (le_refl (field16 (disk 0) 22))
  rw [dataFirst, rootStart]
  omega

/-- The sector that `getFAT` loads is not after the reserved sectors. -/
theorem numReservedSectors_le (b : Sector) : (readHeader b).numReservedSectors ≤ field16 b 14 := by
  have hvalue : (Converter.to16bit (b 14) (b 15)).toNat = field16 b 14 :=
    Converter.to16bit_toNat _ _
  have hcases : (readHeader b).numReservedSectors = if 2 * field16 b 14 < 2 ^ 16 then
      (field16 b 14 : ℤ) else (field16 b 14 : ℤ) - (2 ^ 16 : ℕ) := by
    rw [← hvalue]
    exact BitVec.toInt_eq_toNat_cond _
  rw [hcases]
  split_ifs <;> omega

/-- A file has the sectors that its size needs. -/
theorem FileOn.size_le (hfile : FileOn disk e chain) (hvolume : Volume (disk 0)) :
    e.fsize.toNat ≤ 512 * (clusterSectors (disk 0) chain).length := by
  have hk := hvolume.clusterSize_pos
  have hdiv :=
    Nat.div_add_mod (e.fsize.toNat + 512 * (disk 0 13).toNat - 1) (512 * (disk 0 13).toNat)
  have hmod := Nat.mod_lt (e.fsize.toNat + 512 * (disk 0 13).toNat - 1)
    (by omega : 512 * (disk 0 13).toNat > 0)
  rw [← hfile.length_eq, Nat.mul_assoc] at hdiv
  rw [length_clusterSectors]
  omega

/-- Only a file of size zero has no clusters. -/
theorem FileOn.size_pos (hfile : FileOn disk e chain) (hvolume : Volume (disk 0)) :
    0 < e.fsize.toNat ↔ chain ≠ [] := by
  have hk := hvolume.clusterSize_pos
  rw [← List.length_pos_iff, hfile.length_eq, Nat.div_pos_iff]
  omega

/-- The chain of a file starts at the cluster of its entry. -/
theorem FileOn.head (hfile : FileOn disk e chain) (hne : chain ≠ []) :
    (∃ rest, chain = e.location :: rest) ∧ e.location ≠ 0xFFFF := by
  cases hfile.links hne with
  | nil _ => exact absurd rfl hne
  | cons hstop _ =>
    refine ⟨⟨_, rfl⟩, fun heq => hstop ?_⟩
    rw [heq]
    decide

/-- The first cluster of a file is not the mark for a missing one. -/
theorem FileOn.location_ne (hfile : FileOn disk e chain) : e.location ≠ 0xFFFF := by
  by_cases hne : chain = []
  · rw [hfile.empty hne]
    decide
  · exact (hfile.head hne).2

/-! ## Probing what is read -/

/-- A disk to tell the sectors apart that are read: no sector is zero throughout, and the sectors
of the data are ones or twos. -/
def probe (disk : Disk) (ones : ℤ → Bool) : Disk := fun n =>
  if n < dataFirst (disk 0) then if ∀ i, disk n i = 0 then fun _ => 1 else disk n
  else fun _ => if ones n then 1 else 2

/-- The system of a probed disk does not depend on its data. -/
theorem probe_of_lt {n : ℤ} (hn : n < dataFirst (disk 0)) (ones ones' : ℤ → Bool) :
    probe disk ones n = probe disk ones' n := by
  rw [probe, probe, if_pos hn, if_pos hn]

/-- The sectors of the data have the probing bytes. -/
theorem probe_of_ge {n : ℤ} (hn : (dataFirst (disk 0) : ℤ) ≤ n) (ones : ℤ → Bool) :
    probe disk ones n = fun _ => if ones n then 1 else 2 := if_neg (Int.not_lt.mpr hn)

/-- A sector of the system that is not zero throughout stays as it is. -/
theorem probe_of_ne {n : ℤ} (hn : n < dataFirst (disk 0)) {i : Fin 512} (hi : disk n i ≠ 0)
    (ones : ℤ → Bool) : probe disk ones n = disk n := by
  have hne : ¬ ∀ i, disk n i = 0 := fun hzero => hi (hzero i)
  rw [probe, if_pos hn, if_neg hne]

/-- Every sector of a probed disk has a byte that is not zero. -/
theorem exists_probe_ne_zero (disk : Disk) (ones : ℤ → Bool) (n : ℤ) :
    ∃ i, probe disk ones n i ≠ 0 := by
  rw [probe]
  split_ifs with hn hzero hone
  · exact ⟨0, by decide⟩
  · exact not_forall.mp hzero
  · exact ⟨0, by decide⟩
  · exact ⟨0, by decide⟩

/-- The boot sector starts with its header. -/
theorem probe_boot (hvolume : Volume (disk 0)) (ones : ℤ → Bool) : probe disk ones 0 = disk 0 := by
  have hfirst : disk 0 0 ≠ 0 := by
    rw [(List.cons.inj hvolume.accepted).1]
    decide
  exact probe_of_ne (by exact_mod_cast hvolume.dataFirst_pos) hfirst ones

/-- The chain of a file is on the probed disk, as its links are not zero. -/
theorem FileOn.probe (hfile : FileOn disk e chain) (hvolume : Volume (disk 0)) (ones : ℤ → Bool) :
    FileOn (probe disk ones) e chain := by
  have hboot := probe_boot hvolume ones
  have hentry : ∀ c ∈ chain, tableEntry disk (field16 (disk 0) 14) c ≠ 0 →
      tableEntry (FAT16.probe disk ones) (field16 (disk 0) 14) c =
        tableEntry disk (field16 (disk 0) 14) c := by
    intro c hc hne
    have hlt := hfile.table_lt hvolume hc
    have hsector : FAT16.probe disk ones (field16 (disk 0) 14 + (2 * c.toNat / 512 : ℕ)) =
        disk (field16 (disk 0) 14 + (2 * c.toNat / 512 : ℕ)) := by
      by_cases hlow : disk (field16 (disk 0) 14 + (2 * c.toNat / 512 : ℕ))
          (Fin.ofNat 512 (2 * c.toNat)) = 0
      · have hhigh : disk (field16 (disk 0) 14 + (2 * c.toNat / 512 : ℕ))
            (Fin.ofNat 512 (2 * c.toNat + 1)) ≠ 0 := by
          intro hhigh
          apply hne
          simp only [tableEntry, hlow, hhigh]
          rfl
        exact probe_of_ne (by omega) hhigh ones
      · exact probe_of_ne (by omega) hlow ones
    simp only [tableEntry, hsector]
  refine ⟨by rw [hboot]; exact hfile.length_eq, hfile.empty, fun hne => ?_, ?_⟩
  · have hlinks := hfile.links hne
    rw [hboot]
    refine hlinks.congr hne hlinks.not_stop (fun c hc hnext => hentry c hc ?_) fun c hc hstop => ?_
    · intro hzero
      have hcluster := (hfile.clusters _ hnext).1
      rw [hzero] at hcluster
      exact absurd hcluster (by decide)
    · rwa [hentry c hc fun hzero => by rw [hzero] at hstop; exact absurd hstop (by decide)]
  · rw [hboot]
    exact hfile.clusters

/-- The table of a probed disk does not depend on its data, if a file has a cluster. -/
theorem FileOn.loadedTable_probe (hfile : FileOn disk e chain) (hvolume : Volume (disk 0))
    (hne : chain ≠ []) (ones ones' : ℤ → Bool) :
    loadedTable (FAT16.probe disk ones) = loadedTable (FAT16.probe disk ones') := by
  obtain ⟨⟨rest, rfl⟩, -⟩ := hfile.head hne
  have hlt := hfile.table_lt hvolume List.mem_cons_self
  have hle := numReservedSectors_le (disk 0)
  rw [loadedTable, loadedTable, probe_boot hvolume, probe_boot hvolume,
    probe_of_lt (by omega) ones ones']

/-- The bytes of some sectors are those that one of them has somewhere. -/
theorem mem_bytesOf {b : Byte} {sectors : List ℤ} :
    b ∈ bytesOf disk sectors ↔ ∃ n ∈ sectors, ∃ i, disk n i = b := by
  simp only [bytesOf, List.mem_flatMap, Sector.mem_toList]

/-- Sectors of the data of a probed disk have the bytes that were put there. -/
theorem probe_of_mem {b : Byte} {sectors : List ℤ} {ones : ℤ → Bool}
    (hdata : ∀ x ∈ sectors, (dataFirst (disk 0) : ℤ) ≤ x)
    (hb : b ∈ bytesOf (probe disk ones) sectors) :
    ∃ n, b = if ones n then 1 else 2 := by
  obtain ⟨n, hn, i, rfl⟩ := mem_bytesOf.mp hb
  exact ⟨n, congrFun (probe_of_ge (hdata n hn) ones) i⟩

/-- What is printed of a sector of the system is not in the data, for some data. -/
theorem data_of_printed {xs ys : List ℤ} {s : ℕ}
    (hdata : ∀ x ∈ xs, (dataFirst (disk 0) : ℤ) ≤ x)
    (h : ∀ ones, (bytesOf (probe disk ones) ys).filter (· ≠ 0) =
      (bytesOf (probe disk ones) xs).take s) : ∀ y ∈ ys, (dataFirst (disk 0) : ℤ) ≤ y := by
  intro y hy
  by_contra hsystem
  have hlt : y < dataFirst (disk 0) := Int.not_le.mp hsystem
  obtain ⟨i, hi⟩ := exists_probe_ne_zero disk (fun _ => true) y
  -- The byte is printed whatever the data are, so that it is one and two.
  have hprinted (ones : ℤ → Bool) :
      ∃ n, probe disk (fun _ => true) y i = if ones n then 1 else 2 := by
    refine probe_of_mem hdata (List.mem_of_mem_take (i := s) ?_)
    rw [← h ones, List.mem_filter]
    refine ⟨mem_bytesOf.mpr ⟨y, hy, i, ?_⟩, decide_eq_true hi⟩
    rw [probe_of_lt hlt]
  obtain ⟨-, hone⟩ := hprinted fun _ => true
  obtain ⟨-, htwo⟩ := hprinted fun _ => false
  rw [hone] at htwo
  exact absurd htwo (by decide)

/-- Some sectors, as `cat` prints them, are the first bytes of others in the data, whatever
the data are, only if they are the first of these. -/
theorem sectors_eq {xs ys : List ℤ} {s : ℕ} (hdata : ∀ x ∈ xs, (dataFirst (disk 0) : ℤ) ≤ x)
    (hs : s ≤ 512 * xs.length)
    (h : ∀ ones, (bytesOf (probe disk ones) ys).filter (· ≠ 0) =
      (bytesOf (probe disk ones) xs).take s) :
    s = 512 * ys.length ∧ ys = xs.take ys.length := by
  have hdata' := data_of_printed hdata h
  have hbytes (ones : ℤ → Bool) :
      bytesOf (probe disk ones) ys = (bytesOf (probe disk ones) xs).take s := by
    rw [← h ones, eq_comm, List.filter_eq_self]
    intro b hb
    obtain ⟨n, rfl⟩ := probe_of_mem hdata' hb
    split_ifs <;> decide
  have hlength : s = 512 * ys.length := by
    have hlen := congrArg List.length (hbytes fun _ => true)
    rw [List.length_take, bytesOf, bytesOf,
      length_flatMap_pieces fun n => Sector.length_toList _,
      length_flatMap_pieces fun n => Sector.length_toList _, Nat.min_eq_left hs] at hlen
    exact hlen.symm
  refine ⟨hlength, @places_eq _ _ _ _ (fun _ => True) (fun _ => true) _ _ (fun _ _ => trivial)
    fun ones _ => ?_⟩
  have hpieces := hbytes ones
  rw [hlength, bytesOf, bytesOf,
    take_flatMap_pieces fun n => Sector.length_toList (probe disk ones n)] at hpieces
  have hsectors := map_eq_of_flatMap_eq (by omega) (fun n => Sector.length_toList _)
    (fun n => Sector.length_toList _) hpieces
  have hread (zs : List ℤ) (hzs : ∀ z ∈ zs, (dataFirst (disk 0) : ℤ) ≤ z) :
      zs.map (fun n => (probe disk ones n).toList) =
        (zs.map ones).map fun one => Sector.toList fun _ => if one then 1 else 2 := by
    rw [List.map_map]
    exact List.map_congr_left fun z hz => congrArg Sector.toList (probe_of_ge (hzs z hz) ones)
  rw [hread ys hdata', hread _ fun x hx => hdata x (List.mem_of_mem_take hx)] at hsectors
  refine List.map_injective_iff.mpr (fun one one' heq => ?_) hsectors
  have hbyte := congrFun (Sector.toList_injective heq) 0
  cases one <;> cases one' <;> first | rfl | exact absurd hbyte (by decide)

/-- On a probed disk, a file that is printed as it is has no zero bytes, and is printed. -/
theorem Prints.probe (h : Prints (disk 0) e chain) (hvolume : Volume (disk 0))
    (hfile : FileOn disk e chain) (ones : ℤ → Bool) :
    ∃ found, (loadedTable (FAT16.probe disk ones)).walk e.location = .ok found ∧
      (bytesOf (FAT16.probe disk ones)
        (found.map (sectorIndex (readHeader (disk 0))))).filter (· ≠ 0) =
          (bytesOf (FAT16.probe disk ones) (clusterSectors (disk 0) chain)).take
            e.fsize.toNat := by
  let fs := ofDisk (FAT16.probe disk ones)
  have hboot : fs.device 0 = disk 0 := probe_boot hvolume ones
  have hcat := (h fs (fun _ => 0) hboot (hfile.probe hvolume ones)).mpr fun hmem => by
    rw [fileContents, hboot] at hmem
    obtain ⟨n, hn⟩ := probe_of_mem clusterSectors_ge (List.mem_of_mem_take hmem)
    split_ifs at hn <;> exact absurd hn (by decide)
  rw [cat_eq_ok_iff (hboot ▸ hvolume) hfile.location_ne, fileContents, hboot] at hcat
  obtain ⟨found, hwalk, hout⟩ := hcat
  exact ⟨found, hwalk, hout.symm⟩

/-- `cat` prints something of an empty file, from the sector of cluster 0. -/
theorem not_prints_empty (hvolume : Volume (disk 0)) (hfile : FileOn disk e []) :
    ¬ Prints (disk 0) e [] := by
  intro h
  obtain ⟨found, hwalk, hout⟩ := h.probe hvolume hfile fun _ => true
  have hnone : (bytesOf (FAT16.probe disk fun _ => true)
      (clusterSectors (disk 0) [])).take e.fsize.toNat = [] := List.take_nil
  rw [hnone, List.filter_eq_nil_iff] at hout
  rw [hfile.empty rfl] at hwalk
  cases FileAllocationTable.walk_eq_ok_iff.mp hwalk with
  | nil hstop => exact hstop (by decide)
  | cons _ _ =>
    obtain ⟨i, hi⟩ :=
      exists_probe_ne_zero disk (fun _ => true) (sectorIndex (readHeader (disk 0)) 0)
    exact hout _ (mem_bytesOf.mpr ⟨_, List.mem_cons_self, i, rfl⟩) (decide_eq_true hi)

/-- If a file is printed as it is, the sectors that are read are its first ones. -/
theorem Prints.sectors (h : Prints (disk 0) e chain) (hvolume : Volume (disk 0))
    (hfile : FileOn disk e chain) (hne : chain ≠ []) :
    ∃ found, (loadedTable (FAT16.probe disk fun _ => true)).walk e.location = .ok found ∧
      e.fsize.toNat = 512 * found.length ∧
      found.map (sectorIndex (readHeader (disk 0))) =
        (clusterSectors (disk 0) chain).take found.length := by
  obtain ⟨found, hwalk, -⟩ := h.probe hvolume hfile fun _ => true
  have hprinted (ones : ℤ → Bool) :
      (bytesOf (FAT16.probe disk ones)
        (found.map (sectorIndex (readHeader (disk 0))))).filter (· ≠ 0) =
          (bytesOf (FAT16.probe disk ones) (clusterSectors (disk 0) chain)).take
            e.fsize.toNat := by
    obtain ⟨found', hwalk', hout⟩ := h.probe hvolume hfile ones
    rw [hfile.loadedTable_probe hvolume hne ones fun _ => true, hwalk] at hwalk'
    rwa [Except.ok.inj hwalk']
  have hsectors := sectors_eq clusterSectors_ge (hfile.size_le hvolume) hprinted
  rw [List.length_map] at hsectors
  exact ⟨found, hwalk, hsectors⟩

/-! ## The files that are printed -/

/-- The root directory is where the code has it, if the first sector that is read is the
first one of the file. -/
theorem root_eq_of_first {found : List (BitVec 16)} (hsize : field16 b 11 = 512)
    (hk : 1 ≤ (b 13).toNat) {c : BitVec 16} (hc : 2 ≤ c.toNat) {rest rest' : List (BitVec 16)}
    (hfound : found = c :: rest') (h : found.map (sectorIndex (readHeader b)) =
      (clusterSectors b (c :: rest)).take found.length) : rootStart b = 512 := by
  have hfirst := congrArg (fun l => l[0]?) h
  simp only [hfound, List.map_cons, List.length_cons, List.getElem?_cons_zero,
    List.getElem?_take_of_lt (Nat.zero_lt_succ _),
      clusterSectors_getElem (by omega : 0 < (b 13).toNat),
    Option.some.injEq] at hfirst
  have hsum := sectorIndex_add_rootStart hsize hc
  omega

/-- Sectors after the first one of a cluster are not read. -/
theorem single_of_second {found : List (BitVec 16)} (hsize : field16 b 11 = 512)
    (hroot : rootStart b = 512) {c : BitVec 16} (hc : 2 ≤ c.toNat) {rest rest' : List (BitVec 16)}
    (hfound : found = c :: rest') (h : found.map (sectorIndex (readHeader b)) =
      (clusterSectors b (c :: rest)).take found.length) :
    (b 13).toNat ≤ 1 ∨ found.length = 1 := by
  obtain _ | ⟨c', rest'⟩ := rest'
  · exact Or.inr (by rw [hfound]; rfl)
  · refine Or.inl (Nat.le_of_not_lt fun hk => ?_)
    have hsecond := congrArg (fun l => l[1]?) h
    simp only [hfound, List.map_cons, List.length_cons, List.getElem?_cons_succ,
      List.getElem?_cons_zero, List.getElem?_take_of_lt (by omega : 1 < rest'.length + 1 + 1),
      clusterSectors_getElem hk, Option.some.injEq] at hsecond
    -- The first sectors of two clusters are a multiple of the cluster size apart.
    rw [sectorIndex_readHeader hsize, clusterStart, hroot] at hsecond
    have hoffset : ((c.toNat : ℤ) - 2) * (b 13).toNat = ((c.toNat - 2) * (b 13).toNat : ℕ) := by
      rw [Int.natCast_mul, Int.natCast_sub hc]
      rfl
    have hmod : ((c'.toNat : ℤ) - 2) * (b 13).toNat = ((c.toNat : ℤ) - 2) * (b 13).toNat + 1 := by
      omega
    have hrem := congrArg (fun x => x % ((b 13).toNat : ℤ)) hmod
    simp only [Int.mul_emod_left, Int.add_comm _ 1, Int.add_mul_emod_self_right] at hrem
    rw [Int.emod_eq_of_lt (by omega) (by omega)] at hrem
    omega

/-- A file that is printed as it is fills the single sectors of near clusters. -/
theorem Prints.printable (h : Prints (fs.device 0) e chain) (hvolume : Volume (fs.device 0))
    (hfile : FileOn fs.device e chain) : Printable (fs.device 0) e chain := by
  by_cases hne : chain = []
  · subst hne
    exact absurd h (not_prints_empty hvolume hfile)
  obtain ⟨found, hwalk, hsize, hsectors⟩ := h.sectors hvolume hfile hne
  obtain ⟨⟨rest, hchain⟩, -⟩ := hfile.head hne
  have hpos := (hfile.size_pos hvolume).mpr hne
  have hk := hvolume.clusterSize_pos
  have hlocation := (hfile.clusters e.location (hchain ▸ List.mem_cons_self)).1
  have hnear := FileAllocationTable.lt_of_walk hwalk
  obtain ⟨rest', hfound⟩ : ∃ rest', found = e.location :: rest' := by
    cases FileAllocationTable.walk_eq_ok_iff.mp hwalk with
    | nil _ => simp at hsize; omega
    | cons _ _ => exact ⟨_, rfl⟩
  rw [hchain] at hsectors
  have hroot := root_eq_of_first hvolume.sectorSize hk hlocation hfound hsectors
  have hsingle := single_of_second hvolume.sectorSize hroot hlocation hfound hsectors
  have hlength := hfile.length_eq
  rw [hsize] at hlength
  rcases hsingle with hone | hone
  · -- Every cluster is one sector, and all of them are read.
    have hone : (fs.device 0 13).toNat = 1 := by omega
    have hall : chain.length = found.length := by
      rw [hlength, hone]
      omega
    rw [← hchain, clusterSectors_one hone, ← hall, List.take_of_length_le (by simp)] at hsectors
    refine ⟨hpos, hroot, by omega, Or.inl hone, fun c hc => ?_⟩
    have hmem : (clusterStart (fs.device 0) c : ℤ) ∈
        found.map (sectorIndex (readHeader (fs.device 0))) := by
      rw [hsectors]
      exact List.mem_map_of_mem hc
    obtain ⟨c', hc', heq⟩ := List.mem_map.mp hmem
    have hc2 := (hfile.clusters c hc).1
    rw [sectorIndex_readHeader hvolume.sectorSize, clusterStart, hroot, hone] at heq
    obtain rfl : c' = c := by
      apply BitVec.eq_of_toNat_eq
      omega
    exact hnear c' hc'
  · have hall : chain.length = 1 := by
      rw [hlength, hone]
      exact Nat.div_eq_of_lt_le (by omega) (by omega)
    refine ⟨hpos, hroot, by omega, Or.inr hall, fun c hc => ?_⟩
    obtain ⟨c', hc'⟩ := List.length_eq_one_iff.mp hall
    rw [hchain] at hc'
    rw [hchain, hc', List.mem_singleton] at hc
    rw [hc, ← (List.cons.inj hc').1]
    exact hnear _ (hfound ▸ List.mem_cons_self)

/-- The sectors that are read of such a file are its first ones. -/
theorem Printable.sectors (h : Printable b e chain) (hsize : field16 b 11 = 512)
    (hk : 1 ≤ (b 13).toNat) (hclusters : ∀ c ∈ chain, 2 ≤ c.toNat) :
    chain.map (sectorIndex (readHeader b)) = (clusterSectors b chain).take chain.length := by
  rw [List.map_congr_left fun c hc => sectorIndex_eq_clusterStart hsize h.root_eq (hclusters c hc)]
  rcases h.single with hone | hone
  · rw [clusterSectors_one hone, List.take_of_length_le (by simp)]
  · obtain ⟨c, rfl⟩ := List.length_eq_one_iff.mp hone
    rw [hone, List.take_one, List.head?_eq_getElem?, clusterSectors_getElem (by omega)]
    rfl

/-- A file that fills the single sectors of near clusters is printed without its zero bytes. -/
theorem Printable.cat (h : Printable (fs.device 0) e chain) (hvolume : Volume (fs.device 0))
    (hfile : FileOn fs.device e chain) (stack : Mem) :
    fs.mount.cat stack (.of e) = .ok ((fileContents fs.device e chain).filter (· ≠ 0)) := by
  have hne := (hfile.size_pos hvolume).mp h.size_pos
  have hroot := h.root_eq
  rw [cat_eq_ok_iff hvolume hfile.location_ne]
  refine ⟨chain, ?_, ?_⟩
  · have hreserved : (readHeader (fs.device 0)).numReservedSectors = field16 (fs.device 0) 14 := by
      apply (to16bit_toInt_eq_iff _ _).mpr
      change field16 (fs.device 0) 14 < 0x8000
      rw [rootStart] at hroot
      omega
    have hchain := hfile.links hne
    rw [← hreserved] at hchain
    let loaded : FAT16 := { fs with headerInfo := readHeader (fs.device 0) }
    have hwalk : loaded.getFAT.fat.walk e.location = .ok chain := walk_eq_chain hchain h.near
    exact hwalk
  · rw [fileContents, h.size_eq, bytesOf, bytesOf,
      take_flatMap_pieces fun n => Sector.length_toList (fs.device n)]
    rw [h.sectors hvolume.sectorSize hvolume.clusterSize_pos fun c hc => (hfile.clusters c hc).1]

/-- Such a file is printed as it is, unless it has a zero byte. -/
theorem Printable.prints (h : Printable b e chain) (hvolume : Volume b) : Prints b e chain := by
  rintro fs stack rfl hfile
  rw [h.cat hvolume hfile stack, Except.ok.injEq, List.filter_eq_self]
  simp only [decide_eq_true_eq]
  exact ⟨fun hall hzero => hall 0 hzero rfl, fun hzero b hb heq => hzero (heq ▸ hb)⟩

/-- **`cat` prints files that fill the single sectors of near clusters.** For every volume
and every file on it: whatever the data are, `cat` prints the first bytes of the clusters of
the file, as many as its size, exactly if none of these is zero, if and only if the root directory
starts at sector 512, the file is not empty and fills one sector for each of its clusters, these
are the only sectors of the clusters unless there is one cluster, and the clusters are below
`0xF8`. -/
theorem prints_iff (hvolume : Volume (fs.device 0)) (hfile : FileOn fs.device e chain) :
    Prints (fs.device 0) e chain ↔ Printable (fs.device 0) e chain := by
  constructor
  · exact fun h => h.printable hvolume hfile
  · exact fun h => h.prints hvolume

/-- A disk with a boot sector, one sector of an allocation table, and other data. -/
def smallDisk (clusterSize : Byte) (table : List Byte) : Disk := fun n =>
  if n = 0 then bootSector [0x00, 0x02, clusterSize, 0x00, 0x01, 0x02, 0x10, 0x00, 0x00, 0x08, 0xF8,
    0x80, 0x00]
  else if n = 256 then fun i => table.getD i 0
  else fun _ => BitVec.ofInt 8 n

/-- A file of 1,024 bytes in two clusters of one sector. -/
def twoClusters : FAT16 := ofDisk (smallDisk 1 [0xF8, 0xFF, 0xFF, 0xFF, 0x03, 0x00, 0xFF, 0xFF])

/-- The file in two clusters of one sector is printed as it is, on every such volume without zero
bytes in it. -/
theorem prints_twoClusters : Prints (twoClusters.device 0) ⟨[], 0x20, 2, 1024⟩ [2, 3] := by
  have hvolume : Volume (twoClusters.device 0) := by constructor <;> decide
  have hfile : FileOn twoClusters.device ⟨[], 0x20, 2, 1024⟩ [2, 3] := by
    refine ⟨by decide, by simp, fun _ => ?_, by simp; decide⟩
    exact .cons (by decide) (.cons (by decide) (.nil (by decide)))
  refine (prints_iff hvolume hfile).mpr
    ⟨by decide, by decide, by decide, Or.inl (by decide), by simp⟩

/-- A file of 600 bytes in one cluster of two sectors. -/
def twoSectors : FAT16 := ofDisk (smallDisk 2 [0xF8, 0xFF, 0xFF, 0xFF, 0xFF, 0xFF])

/-- The second sector of the cluster is missing in what is printed, and no byte is zero. -/
theorem cat_twoSectors : Volume (twoSectors.device 0) ∧
    FileOn twoSectors.device ⟨[], 0x20, 2, 600⟩ [2] ∧
    0 ∉ fileContents twoSectors.device ⟨[], 0x20, 2, 600⟩ [2] ∧
    twoSectors.mount.cat (fun _ => 0) (.of ⟨[], 0x20, 2, 600⟩) =
      .ok (bytesOf twoSectors.device [513]) ∧
    twoSectors.mount.cat (fun _ => 0) (.of ⟨[], 0x20, 2, 600⟩) ≠
      .ok (fileContents twoSectors.device ⟨[], 0x20, 2, 600⟩ [2]) := by
  have hvolume : Volume (twoSectors.device 0) := by constructor <;> decide
  have hfile : FileOn twoSectors.device ⟨[], 0x20, 2, 600⟩ [2] := by
    refine ⟨by decide, by simp, fun _ => ?_, by simp; decide⟩
    exact .cons (by decide) (.nil (by decide))
  have hsectors : clusterSectors (twoSectors.device 0) [2] = [513, 514] := by decide
  have hnonzero : ∀ b ∈ bytesOf twoSectors.device [513, 514], b ≠ 0 := by
    have hall : ∀ n ∈ [(513 : ℤ), 514], ∀ i, twoSectors.device n i ≠ 0 := by
      intro n hn i
      rcases List.mem_cons.mp hn with rfl | hn
      · exact (by decide : BitVec.ofInt 8 513 ≠ 0)
      · rw [List.mem_singleton.mp hn]
        exact (by decide : BitVec.ofInt 8 514 ≠ 0)
    intro b hb
    obtain ⟨n, hn, i, rfl⟩ := mem_bytesOf.mp hb
    exact hall n hn i
  have hcat : twoSectors.mount.cat (fun _ => 0) (.of ⟨[], 0x20, 2, 600⟩) =
      .ok (bytesOf twoSectors.device [513]) := by
    rw [cat_eq_ok_iff hvolume (by decide)]
    refine ⟨[2], ?_, (List.filter_eq_self.mpr fun b hb => decide_eq_true ?_).symm⟩
    · rw [FileAllocationTable.walk_eq_ok_iff]
      exact .cons (by decide) (.nil (by decide))
    · obtain ⟨n, hn, hi⟩ := mem_bytesOf.mp hb
      exact hnonzero b (mem_bytesOf.mpr ⟨n, List.mem_append_left [514] hn, hi⟩)
  refine ⟨hvolume, hfile, fun hmem => ?_, hcat, ?_⟩
  · rw [fileContents, hsectors] at hmem
    exact hnonzero 0 (List.mem_of_mem_take hmem) rfl
  · rw [hcat]
    intro h
    have hlength := congrArg List.length (Except.ok.inj h)
    rw [fileContents, List.length_take, bytesOf, bytesOf,
      length_flatMap_pieces fun n => Sector.length_toList _,
      length_flatMap_pieces fun n => Sector.length_toList _, length_clusterSectors] at hlength
    revert hlength
    decide

end FAT16

end Muk
