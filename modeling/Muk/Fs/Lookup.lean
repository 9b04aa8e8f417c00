import Muk.Drivers.Print
import Muk.Fs.DirectoryBytes
import Muk.Fs.Geometry
import Muk.Fs.Path

/-!
# Lookups on malformed disks

`readDirectory(path)` goes from the root directory to the first cluster of one entry after the
other. Nothing on the way is checked: the sector size is divided by, the vector of sectors may be
empty, and a sector number may be negative. The model here fails at each of these, for whatever
the disk holds.
-/

namespace Muk

/-- What a lookup must not do, and a loop that does not end. -/
inductive LookupFault where
  | divisionByZero
  | emptyVector
  | negativeSector
  | diverges
  deriving DecidableEq, Repr

/-- How `readDirectory(path)` can fail to return: in `strtok`, on the disk or in printing. -/
inductive DirectoryFault where
  | scan (fault : ScanFault)
  | lookup (fault : LookupFault)
  | print (fault : PrintFault)

/-- `"Error: directory not found\n"` -/
def directoryNotFound : List Byte :=
  [0x45, 0x72, 0x72, 0x6F, 0x72, 0x3A, 0x20, 0x64, 0x69, 0x72, 0x65, 0x63, 0x74, 0x6F, 0x72, 0x79,
    0x20, 0x6E, 0x6F, 0x74, 0x20, 0x66, 0x6F, 0x75, 0x6E, 0x64, 0x0A]

namespace FAT16

variable (fs : FAT16)

/-- `device->read_u8(1, offset)`. -/
def readDevice (offset : ℤ) : Except LookupFault Sector :=
  if 0 ≤ offset then .ok (fs.device offset) else .error .negativeSector

/-- The entries that the parser finds in a sector, with some memory behind the buffer. -/
def directoryAt (behind : DirBytes) (sectorIndex : Word) : List DirectoryEntry :=
  ((fs.device sectorIndex.toInt).withBehind behind).entries

/-- `readDirectory(sector)`. -/
def readSectorAsked (behind : DirBytes) (sectorIndex : Word) :
    Except LookupFault (List DirectoryEntry) := do
  let s ← fs.readDevice sectorIndex.toInt
  match (s.withBehind behind).readDirectory with
  | .ok (dir, _) => .ok dir
  | .error _ => .error .diverges

/-- `walkSectors`, with the read of the table in `getFAT`. -/
def walkSectorsAsked (startSector : BitVec 16) : Except LookupFault (List ℤ × FAT16) := do
  let _ ← fs.readDevice fs.headerInfo.numReservedSectors
  match fs.walkSectors startSector with
  | .ok r => .ok r
  | .error .divisionByZero => .error .divisionByZero
  | .error _ => .error .diverges

/-- The loop of `readDirectory(path)` over the folders, from call `k` of `readDirectory(sector)`
on, and the directory behind it, or none if a folder is not found. The memory behind the buffer may
be another one in each call. -/
def descendAsked (behind : ℕ → DirBytes) :
    FAT16 → ℕ → Word → List (List Byte) → Except LookupFault (Option (List DirectoryEntry))
  | fs, k, current, [] => do
    let dir ← fs.readSectorAsked (behind k) current
    .ok (some dir)
  | fs, k, current, folder :: rest => do
    let dir ← fs.readSectorAsked (behind k) current
    match dir.find? fun e => e.cname = folder with
    | some e => do
      let (sectors, fs) ← fs.walkSectorsAsked e.location
      match sectors with
      | sector :: _ => descendAsked behind fs (k + 1) (BitVec.ofInt 32 sector) rest
      | [] => .error .emptyVector
    | none => .ok none

/-- `readDirectory(path)`, with the tokens that `strtok` found in the path. -/
def readPathAsked (behind : ℕ → DirBytes) (path : List Byte) (tokens : List (List Byte)) :
    Except LookupFault (Option (List DirectoryEntry)) :=
  descendAsked behind fs 0 rootSector (if path.length > 2 then tokens else [])

/-- `readDirectory(path)`: what it prints, and the entries that it returns. -/
def readDirectoryPath (mem : PathMemory) (behind : ℕ → DirBytes) (stack : Mem) (fuel : ℕ)
    (path : List Byte) : Except DirectoryFault (List Byte × List DirectoryEntry) := do
  let body := if path.head? = some slash then path.tail else path
  let tokens ← (mem.tokenise fuel body).mapError .scan
  let found ← (fs.readPathAsked behind path tokens).mapError .lookup
  match found with
  | some dir => .ok ([], dir)
  | none => do
    -- folder not found
    let text ← (terminalPrintf stack directoryNotFound []).mapError .print
    .ok (text, [])

/-- A cluster that a lookup can go on from: the table and the cluster are at sectors that exist,
and the walk does not stop at once. -/
structure Enterable (location : BitVec 16) : Prop where
  table : 0 ≤ fs.headerInfo.numReservedSectors
  sectorSize : fs.headerInfo.sectorSize ≠ 0
  inTable : location < 0xF8
  first : 0 ≤ sectorIndex fs.headerInfo location

/-- Every entry that some components name, one after the other, has a cluster that a lookup can go
on from. -/
def Passable (behind : ℕ → DirBytes) : ℕ → Word → List (List Byte) → Prop
  | _, _, [] => True
  | k, current, folder :: rest =>
    ∀ e, (fs.directoryAt (behind k) current).find? (fun e => e.cname = folder) = some e →
      fs.Enterable e.location ∧
        Passable behind (k + 1) (BitVec.ofInt 32 (sectorIndex fs.headerInfo e.location)) rest

variable {fs} {behind : ℕ → DirBytes} {k : ℕ} {current : Word} {location : BitVec 16}
  {folder : List Byte} {tokens rest : List (List Byte)} {e : DirectoryEntry}

/-- The text for a missing folder is printed. -/
theorem print_directoryNotFound (stack : Mem) :
    terminalPrintf stack directoryNotFound [] = .ok directoryNotFound :=
  terminalPrintf_text stack (by decide) (by decide)

/-- What `readDirectory(path)` does with the tokens of its path. -/
theorem readDirectoryPath_eq (stack : Mem) {mem : PathMemory} {fuel : ℕ} {body : List Byte}
    {found : Option (List DirectoryEntry)} (htokens : mem.tokenise fuel body = .ok tokens)
    (hfound : fs.readPathAsked behind (slash :: body) tokens = .ok found) :
    fs.readDirectoryPath mem behind stack fuel (slash :: body) =
      .ok (found.elim (directoryNotFound, []) fun dir => ([], dir)) := by
  have hslash : (slash :: body).head? = some slash := rfl
  simp only [readDirectoryPath, if_pos hslash, List.tail_cons, htokens, hfound, Except.mapError,
    ok_bind, print_directoryNotFound]
  cases found <;> rfl

/-! ## One folder -/

/-- A sector whose number is not negative is read. -/
theorem readDevice_ok {offset : ℤ} (h : 0 ≤ offset) :
    fs.readDevice offset = .ok (fs.device offset) := if_pos h

/-- The parser returns, so that a directory is read if its sector is not negative. -/
theorem readSectorAsked_ok {b : DirBytes} (h : 0 ≤ current.toInt) :
    fs.readSectorAsked b current = .ok (fs.directoryAt b current) := by
  obtain ⟨accesses, hrun⟩ :=
    DirBytes.readDirectory_entries ((fs.device current.toInt).withBehind b)
  rw [readSectorAsked, readDevice_ok h, ok_bind, hrun]
  rfl

/-- A directory that was read is in a sector whose number is not negative. -/
theorem nonneg_of_readSectorAsked {b : DirBytes} {dir : List DirectoryEntry}
    (h : fs.readSectorAsked b current = .ok dir) : 0 ≤ current.toInt := by
  obtain ⟨s, hread, -⟩ := bind_eq_ok.mp h
  unfold readDevice at hread
  split_ifs at hread with hsector
  exact hsector

/-- The directory that the loop ends at is read. -/
theorem descendAsked_nil (behind : ℕ → DirBytes) (h : 0 ≤ current.toInt) :
    descendAsked behind fs k current [] = .ok (some (fs.directoryAt (behind k) current)) := by
  rw [descendAsked, readSectorAsked_ok h, ok_bind]

/-- What the loop does with an entry that it found. -/
theorem descendAsked_found (behind : ℕ → DirBytes) (h : 0 ≤ current.toInt)
    (hfound : (fs.directoryAt (behind k) current).find? (fun e => e.cname = folder) = some e) :
    descendAsked behind fs k current (folder :: rest) = (do
      let (sectors, fs) ← fs.walkSectorsAsked e.location
      match sectors with
      | sector :: _ => descendAsked behind fs (k + 1) (BitVec.ofInt 32 sector) rest
      | [] => .error .emptyVector) := by
  rw [descendAsked, readSectorAsked_ok h, ok_bind]
  simp only [hfound]

/-- A folder that is not listed ends the loop, with none found. -/
theorem descendAsked_missing (behind : ℕ → DirBytes) (h : 0 ≤ current.toInt)
    (hfound : (fs.directoryAt (behind k) current).find? (fun e => e.cname = folder) = none) :
    descendAsked behind fs k current (folder :: rest) = .ok none := by
  rw [descendAsked, readSectorAsked_ok h, ok_bind]
  simp only [hfound]

/-- The walk from a cluster has its sector first, if there is one. -/
theorem walkSectorsAsked_ok (htable : 0 ≤ fs.headerInfo.numReservedSectors)
    (hsize : fs.headerInfo.sectorSize ≠ 0) (hlt : location < 0xF8)
    (hends : ∃ chain, fs.getFAT.fat.walk location = .ok chain) :
    ∃ more, fs.walkSectorsAsked location =
      .ok (sectorIndex fs.headerInfo location :: more, fs.getFAT) := by
  obtain ⟨chain, hwalk⟩ := hends
  have hchain := FileAllocationTable.walk_eq_ok_iff.mp hwalk
  cases hchain with
  | nil hstop => exact absurd hlt hstop
  | @cons _ chain hstop hrest =>
    refine ⟨chain.map (sectorIndex fs.headerInfo), ?_⟩
    have hsectors : fs.walkSectors location =
        .ok ((location :: chain).map (sectorIndex fs.headerInfo), fs.getFAT) := by
      rw [walkSectors, hwalk, ok_bind]
      exact if_neg hsize
    rw [walkSectorsAsked, readDevice_ok htable, ok_bind, hsectors]
    rfl

/-- A walk that has a first sector. -/
theorem walkSectorsAsked_cons {sector : ℤ} {more : List ℤ} {fs' : FAT16}
    (h : fs.walkSectorsAsked location = .ok (sector :: more, fs')) :
    0 ≤ fs.headerInfo.numReservedSectors ∧ fs.headerInfo.sectorSize ≠ 0 ∧ location < 0xF8 ∧
      sector = sectorIndex fs.headerInfo location ∧ fs' = fs.getFAT := by
  obtain ⟨s, hread, h⟩ := bind_eq_ok.mp h
  unfold readDevice at hread
  split_ifs at hread with htable
  cases hwalk : fs.walkSectors location with
  | error fault => cases fault <;> simp [hwalk] at h
  | ok r =>
    simp only [hwalk] at h
    obtain rfl := Except.ok.inj h
    obtain ⟨chain, hchain, hrest⟩ := bind_eq_ok.mp hwalk
    split_ifs at hrest with hsize
    obtain ⟨hsectors, hfs⟩ := Prod.mk.inj (Except.ok.inj hrest)
    have hlinks := FileAllocationTable.walk_eq_ok_iff.mp hchain
    cases hlinks with
    | nil _ => cases hsectors
    | cons hstop _ =>
      obtain ⟨hfirst, -⟩ := List.cons.inj hsectors
      exact ⟨htable, hsize, not_not.mp hstop, hfirst.symm, hfs.symm⟩

/-! ## The loop over the folders -/

/-- Loading the table does not change what is on the way. -/
theorem passable_getFAT :
    fs.getFAT.Passable behind k current tokens ↔ fs.Passable behind k current tokens := by
  induction tokens generalizing k current with
  | nil => exact Iff.rfl
  | cons folder rest ih =>
    unfold Passable
    simp only [ih]
    constructor
    · intro h e he
      obtain ⟨⟨htable, hsize, hlt, hfirst⟩, hrest⟩ := h e he
      exact ⟨⟨htable, hsize, hlt, hfirst⟩, hrest⟩
    · intro h e he
      obtain ⟨⟨htable, hsize, hlt, hfirst⟩, hrest⟩ := h e he
      exact ⟨⟨htable, hsize, hlt, hfirst⟩, hrest⟩

/-- A lookup that returns started at a sector whose number is not negative. -/
theorem nonneg_of_descendAsked {dir : Option (List DirectoryEntry)}
    (h : descendAsked behind fs k current tokens = .ok dir) : 0 ≤ current.toInt := by
  cases tokens with
  | nil =>
    obtain ⟨dir, hread, -⟩ := bind_eq_ok.mp h
    exact nonneg_of_readSectorAsked hread
  | cons folder rest =>
    obtain ⟨found, hread, -⟩ := bind_eq_ok.mp h
    exact nonneg_of_readSectorAsked hread

/-- The loop returns if and only if it can go on from every entry that it finds. -/
theorem descendAsked_iff (hends : ∀ start, ∃ chain, fs.getFAT.fat.walk start = .ok chain)
    (hint : ∀ c < 0xF8, (BitVec.ofInt 32 (sectorIndex fs.headerInfo c)).toInt =
      sectorIndex fs.headerInfo c) (hcurrent : 0 ≤ current.toInt) :
    (∃ dir, descendAsked behind fs k current tokens = .ok dir) ↔
      fs.Passable behind k current tokens := by
  induction tokens generalizing fs k current with
  | nil => exact ⟨fun _ => trivial, fun _ => ⟨_, descendAsked_nil behind hcurrent⟩⟩
  | cons folder rest ih =>
    unfold Passable
    cases hfound : (fs.directoryAt (behind k) current).find? (fun e => e.cname = folder) with
    | none =>
      rw [descendAsked_missing behind hcurrent hfound]
      exact ⟨fun _ e he => absurd he (by simp), fun _ => ⟨none, rfl⟩⟩
    | some e =>
      rw [descendAsked_found behind hcurrent hfound]
      have hrec (hlt : e.location < 0xF8) (hfirst : 0 ≤ sectorIndex fs.headerInfo e.location) :
          (∃ dir, descendAsked behind fs.getFAT (k + 1)
            (BitVec.ofInt 32 (sectorIndex fs.headerInfo e.location)) rest = .ok dir) ↔
          fs.getFAT.Passable behind (k + 1)
            (BitVec.ofInt 32 (sectorIndex fs.headerInfo e.location)) rest :=
        ih hends hint (by rwa [hint _ hlt])
      constructor
      · rintro ⟨dir, hrun⟩ e' he'
        obtain rfl := Option.some.inj he'
        obtain ⟨⟨sectors, fs'⟩, hwalk, hrun⟩ := bind_eq_ok.mp hrun
        obtain _ | ⟨sector, more⟩ := sectors
        · cases hrun
        obtain ⟨htable, hsize, hlt, rfl, rfl⟩ := walkSectorsAsked_cons hwalk
        have hfirst : 0 ≤ sectorIndex fs.headerInfo e.location := by
          rw [← hint _ hlt]
          exact nonneg_of_descendAsked hrun
        refine ⟨⟨htable, hsize, hlt, hfirst⟩, passable_getFAT.mp ?_⟩
        exact (hrec hlt hfirst).mp ⟨dir, hrun⟩
      · intro h
        obtain ⟨⟨htable, hsize, hlt, hfirst⟩, hrest⟩ := h e rfl
        obtain ⟨more, hwalk⟩ := walkSectorsAsked_ok htable hsize hlt (hends e.location)
        rw [hwalk, ok_bind]
        exact (hrec hlt hfirst).mpr (passable_getFAT.mpr hrest)

/-- The directories and the first sectors of a device, with the same memory behind all buffers. -/
def tree (fs : FAT16) (b : DirBytes) : Tree where
  readDirectory := fs.directoryAt b
  firstSector location := BitVec.ofInt 32 (sectorIndex fs.headerInfo location)

/-- Loading the table does not change the directories. -/
theorem tree_getFAT {b : DirBytes} : fs.getFAT.tree b = fs.tree b := rfl

/-- A lookup that returns finds what the lookup in the tree of directories finds. -/
theorem descend_of_descendAsked {b : DirBytes} {dir : Option (List DirectoryEntry)}
    (h : descendAsked (fun _ => b) fs k current tokens = .ok dir) :
    (fs.tree b).descend current tokens = dir.getD [] := by
  have hcurrent := nonneg_of_descendAsked h
  induction tokens generalizing fs k current with
  | nil =>
    rw [descendAsked_nil _ hcurrent] at h
    rw [← Except.ok.inj h]
    rfl
  | cons folder rest ih =>
    unfold Tree.descend
    cases hfound : (fs.directoryAt b current).find? (fun e => e.cname = folder) with
    | none =>
      rw [descendAsked_missing (fun _ => b) hcurrent hfound] at h
      have hnone : ((fs.tree b).readDirectory current).find? (fun e => e.cname = folder) = none :=
        hfound
      rw [hnone, ← Except.ok.inj h]
      rfl
    | some e =>
      rw [descendAsked_found (fun _ => b) hcurrent hfound] at h
      obtain ⟨⟨sectors, fs'⟩, hwalk, h⟩ := bind_eq_ok.mp h
      obtain _ | ⟨sector, more⟩ := sectors
      · cases h
      obtain ⟨-, -, -, rfl, rfl⟩ := walkSectorsAsked_cons hwalk
      have hsome : ((fs.tree b).readDirectory current).find? (fun e => e.cname = folder) = some e :=
        hfound
      have hrest := ih h (nonneg_of_descendAsked h)
      rw [tree_getFAT] at hrest
      rw [hsome]
      exact hrest

/-- The first sector of a cluster below `0xF8` is a 32-bit number. -/
theorem toInt_sectorIndex (b : Sector) {c : BitVec 16} (hc : c < 0xF8) :
    (BitVec.ofInt 32 (sectorIndex (readHeader b) c)).toInt = sectorIndex (readHeader b) c := by
  have hlt : c.toNat < 248 := BitVec.lt_def.mp hc
  have hcluster := (b 13).isLt
  have hstart := (dataStart (readHeader b)).isLt
  have hlow : -2 * ((b 13).toNat : ℤ) ≤ ((c.toNat : ℤ) - 2) * (b 13).toNat :=
    Int.mul_le_mul_of_nonneg_right (by omega) (by omega)
  have hhigh : ((c.toNat : ℤ) - 2) * (b 13).toNat ≤ 248 * ((b 13).toNat : ℤ) :=
    Int.mul_le_mul_of_nonneg_right (by omega) (by omega)
  have hsector : sectorIndex (readHeader b) c =
      ((c.toNat : ℤ) - 2) * (b 13).toNat + (dataStart (readHeader b)).toNat := rfl
  rw [BitVec.toInt_ofInt, Int.bmod_eq_of_le] <;> omega

/-- **A lookup on a malformed disk.** For every device whose boot sector is accepted, every table
whose chains end, all directories and all memory behind the buffers, and whatever tokens are found
in a path: the lookup never divides by zero, takes the first of no sectors or asks for a negative
sector, if and only if every entry that it comes across has a cluster that it can go on from. -/
theorem readPathAsked_iff (hopen : fs.openDevice.1 = true)
    (hends : ∀ start, ∃ chain, fs.openDevice.2.getFAT.fat.walk start = .ok chain)
    (behind : ℕ → DirBytes) (path : List Byte) (tokens : List (List Byte)) :
    (∃ dir, fs.openDevice.2.readPathAsked behind path tokens = .ok dir) ↔
      (2 < path.length → fs.openDevice.2.Passable behind 0 rootSector tokens) := by
  obtain ⟨hinfo, -⟩ := openDevice_info hopen
  have hroot : 0 ≤ rootSector.toInt := by decide
  unfold readPathAsked
  rw [descendAsked_iff hends (fun c hc => ?_) hroot]
  · by_cases hlong : path.length > 2
    · rw [if_pos hlong]
      exact ⟨fun h _ => h, fun h => h hlong⟩
    · rw [if_neg hlong]
      exact ⟨fun _ h => absurd h hlong, fun _ => trivial⟩
  · rw [hinfo]
    exact toInt_sectorIndex _ hc

/-- The short slot of a folder `a`. -/
def folderSlot (location : BitVec 16) : List Byte :=
  [0x41, 0x20, 0x20, 0x20, 0x20, 0x20, 0x20, 0x20, 0x20, 0x20, 0x20, 0x10, 0, 0, 0, 0, 0, 0, 0, 0,
    0, 0, 0, 0, 0, 0, location.setWidth 8, (location >>> 8).setWidth 8]

/-- A disk with a folder `a` in every directory, and an allocation table of end marks. -/
def oneFolder (location : BitVec 16) : FAT16 := ofDisk fun n =>
  if n = 0 then bootSector [0x00, 0x02, 0x01, 0x01, 0x00]
  else if n = 1 then fun _ => 0xFF
  else fun i => (folderSlot location).getD i 0

/-- Every chain in a table of end marks has one cluster, or none. -/
theorem walk_oneFolder (location start : BitVec 16) :
    ∃ chain, (oneFolder location).openDevice.2.getFAT.fat.walk start = .ok chain := by
  have hreserved : (oneFolder location).openDevice.2.headerInfo.numReservedSectors = 1 := by
    have hopen : (oneFolder location).openDevice.1 = true := rfl
    obtain ⟨hinfo, -⟩ := openDevice_info hopen
    have hboot :
        (readHeader (bootSector [0x00, 0x02, 0x01, 0x01, 0x00])).numReservedSectors = 1 := by
      decide
    exact (congrArg FATHeader.numReservedSectors hinfo).trans hboot
  have hnext : (oneFolder location).openDevice.2.getFAT.fat.nextByte start = 0xFF := by
    simp only [FileAllocationTable.nextByte, getFAT, hreserved]
    rfl
  simp only [FileAllocationTable.walk_eq_ok_iff]
  by_cases h : start < 0xF8
  · refine ⟨[start], .cons (not_not.mpr h) (.nil ?_)⟩
    rw [hnext]
    decide
  · exact ⟨[], .nil h⟩

/-- The path `/a/` with the folder in cluster 2. -/
theorem readPathAsked_folder : ∃ dir, (oneFolder 2).openDevice.2.readPathAsked (fun _ _ => 0)
    [slash, 0x61, slash] [[0x61]] = .ok dir := by
  apply (readPathAsked_iff (by decide) (walk_oneFolder 2) _ _ _).mpr
  intro _ e he
  have hfound : ((oneFolder 2).openDevice.2.directoryAt (fun _ => 0) rootSector).find?
      (fun e => e.cname = [0x61]) = some ⟨[0x61], 0x10, 2, 0⟩ := by decide +kernel
  obtain rfl := Option.some.inj (he.symm.trans hfound)
  exact ⟨⟨by decide, by decide, by decide, by decide⟩, trivial⟩

/-- With the folder in cluster `0x100`, the first of no sectors is taken. -/
theorem readPathAsked_far : (oneFolder 0x100).openDevice.1 = true ∧
    (∀ start, ∃ chain, (oneFolder 0x100).openDevice.2.getFAT.fat.walk start = .ok chain) ∧
    (oneFolder 0x100).openDevice.2.readPathAsked (fun _ _ => 0) [slash, 0x61, slash] [[0x61]] =
      .error .emptyVector := by
  exact ⟨by decide, walk_oneFolder 0x100, by decide +kernel⟩

end FAT16

end Muk
