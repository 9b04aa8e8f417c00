import Muk.Fs.Fat16

/-!
# Directory sectors

`readDirectory` goes through the sixteen slots of a directory sector. A short slot is
listed under its short name. A long-name slot is listed under the name that it holds, with
the attributes, the cluster and the size of the slot after it, which is taken for the short
slot of the file. A file with several long-name slots is listed once for every two of them
and once more.
-/

namespace Muk

namespace FATAttributes

def noEntry : Byte := 0x00

def shortNameFile : Byte := 0x20

def shortName : Byte := 0x10

def longName : Byte := 0x0F

end FATAttributes

/-- `DirectoryEntry`, with the characters that were stored before the end of its name. -/
structure DirectoryEntry where
  name : List Byte
  attributes : Byte
  location : BitVec 16
  fsize : Word
  deriving DecidableEq

/-- `bitset::test` of a mask of 32 bits. A shift of a word takes the count modulo 32. -/
def testBit (mask : Word) (bit : ℤ) : Bool := mask.getLsbD (bit % 32).toNat

/-- `tolower`. -/
def tolower (upper : Byte) : Byte := if upper ≤ 0x5A ∧ upper ≥ 0x41 then upper + 0x20 else upper

namespace Sector

/-- Read a byte of the buffer that holds a sector. -/
def read (s : Sector) (index : ℕ) : Except FsFault Byte :=
  if h : index < 512 then .ok (s ⟨index, h⟩) else .error .outOfBounds

/-- Read 16 bits. -/
def read16 (s : Sector) (index : ℕ) : Except FsFault (BitVec 16) := do
  let b0 ← s.read index
  let b1 ← s.read (index + 1)
  .ok (Converter.to16bit b0 b1)

/-- Read 32 bits. -/
def read32 (s : Sector) (index : ℕ) : Except FsFault Word := do
  let b0 ← s.read index
  let b1 ← s.read (index + 1)
  let b2 ← s.read (index + 2)
  let b3 ← s.read (index + 3)
  .ok (Converter.to32bit b0 b1 b2 b3)

/-- The name of a short slot: a dot stands for padding between two characters. The loop
runs through twelve bytes, the last of which is the attribute byte. -/
def readShortName (s : Sector) (index : ℕ) : Except FsFault (List Byte × Bool) :=
  forLoop (fun offset state => do
    let (name, addSeparator) := state
    let dirChar ← s.read (index + offset)
    if dirChar ≠ 0x20 ∧ dirChar ≠ 0x10 then
      if addSeparator then .ok (name ++ [0x2E, tolower dirChar], false)
      else .ok (name ++ [tolower dirChar], false)
    else .ok (name, true)) 0 12 ([], false)

/-- The bytes of a long-name slot that belong to the name. -/
def bitMask : Word := 0x5542AA8A

/-- The name of a long-name slot. The loop runs through 33 bytes. -/
def readLongName (s : Sector) (index : ℕ) : Except FsFault (List Byte) :=
  forLoop (fun j name =>
    if testBit bitMask (31 - j) then do
      let b ← s.read (index + j)
      if b ≠ 0xFF ∧ b ≠ 0x00 then .ok (name ++ [b]) else .ok name
    else .ok name) 0 33 []

/-- One pass of the loop of `readDirectory`: the entry that it lists, and the next index. -/
def readSlot (s : Sector) (index : ℕ) : Except FsFault (Option DirectoryEntry × ℕ) := do
  let attributes ← s.read (index + 11)
  if attributes = FATAttributes.shortName ∨ attributes = FATAttributes.shortNameFile then
    let location ← s.read16 (index + 26)
    let fsize ← s.read32 (index + 28)
    let (name, _) ← s.readShortName index
    .ok (some { name, attributes, location, fsize }, index + 32)
  else if attributes = FATAttributes.longName then
    let name ← s.readLongName index
    let index := index + 32
    let attributes ← s.read (index + 11)
    let location ← s.read16 (index + 26)
    let fsize ← s.read32 (index + 28)
    .ok (some { name, attributes, location, fsize }, index + 32)
  else if attributes = FATAttributes.noEntry then .ok (none, index + 32)
  else .ok (some { name := [], attributes, location := 0, fsize := 0 }, index + 32)

/-- The loop of `readDirectory` from an index on. -/
def readSlots (s : Sector) : ℕ → ℕ → Except FsFault (List DirectoryEntry)
  | 0, index => if index < 512 then .error .diverges else .ok []
  | fuel + 1, index =>
    if index < 512 then do
      let (entry, next) ← s.readSlot index
      let rest ← s.readSlots fuel next
      .ok (entry.toList ++ rest)
    else .ok []

end Sector

/-- `FAT16::readDirectory(sector)`. Every pass of the loop goes on by a slot at least. -/
def FAT16.readSector (fs : FAT16) (sectorIndex : Word) : Except FsFault (List DirectoryEntry) :=
  (fs.device sectorIndex.toInt).readSlots 16 0

namespace Sector

variable {s : Sector} {i j k : ℕ} {slots : List ℕ}

/-- A byte of a slot. -/
def slotByte (s : Sector) (i k : ℕ) : Byte := s (Fin.ofNat 512 (32 * i + k))

/-- The attribute byte, the cluster and the size that a slot holds. -/
def slotDetails (s : Sector) (i : ℕ) : Byte × BitVec 16 × Word :=
  (s.slotByte i 11, s.slotByte i 27 ++ s.slotByte i 26,
    ofBytes (s.slotByte i 31) (s.slotByte i 30) (s.slotByte i 29) (s.slotByte i 28))

/-- The details of an entry. -/
def details (e : DirectoryEntry) : Byte × BitVec 16 × Word := (e.attributes, e.location, e.fsize)

/-- A byte of a slot is a byte of the sector. -/
theorem read_slot (hi : i < 16) (hk : k < 32) : s.read (32 * i + k) = .ok (s.slotByte i k) := by
  have hlt : 32 * i + k < 512 := by omega
  rw [read, dif_pos hlt, slotByte]
  congr 2
  exact Fin.ext (Nat.mod_eq_of_lt hlt).symm

/-- The location of a slot is read from its bytes 26 and 27, the low byte first. -/
theorem read16_slot (hi : i < 16) :
    s.read16 (32 * i + 26) = .ok (s.slotByte i 27 ++ s.slotByte i 26) := by
  simp only [read16, Nat.add_assoc, read_slot hi, Nat.reduceAdd, Nat.reduceLT,
    Converter.to16bit_eq, bind, Except.bind]

/-- The size of a slot is read from its bytes 28 to 31, the low byte first. -/
theorem read32_slot (hi : i < 16) : s.read32 (32 * i + 28) =
    .ok (ofBytes (s.slotByte i 31) (s.slotByte i 30) (s.slotByte i 29) (s.slotByte i 28)) := by
  simp only [read32, Nat.add_assoc, read_slot hi, Nat.reduceAdd, Nat.reduceLT,
    Converter.to32bit_eq, bind, Except.bind]

/-- The short name of a slot inside the sector is read without leaving it. -/
theorem readShortName_slot (hi : i < 16) : ∃ name, s.readShortName (32 * i) = .ok name := by
  apply forLoop_ok
  intro offset hoffset state
  simp only [Nat.zero_add, read_slot hi (by omega : offset < 32), bind, Except.bind]
  split_ifs <;> exact ⟨_, rfl⟩

/-- The last pass of the loop does not read the byte after the slot. -/
theorem readLongName_slot (hi : i < 16) : ∃ name, s.readLongName (32 * i) = .ok name := by
  apply forLoop_ok
  intro j hj name
  rw [Nat.zero_add]
  obtain hlast | hlt := Nat.eq_or_lt_of_le (Nat.le_of_lt_succ hj)
  · subst hlast
    exact ⟨name, if_neg (by decide)⟩
  · simp only [read_slot hi hlt, bind, Except.bind]
    split_ifs <;> exact ⟨_, rfl⟩

/-- A short slot is one entry. -/
theorem readSlot_short (hi : i < 16)
    (hattr : s.slotByte i 11 = FATAttributes.shortName ∨
      s.slotByte i 11 = FATAttributes.shortNameFile) :
    ∃ e, s.readSlot (32 * i) = .ok (some e, 32 * (i + 1)) ∧ details e = s.slotDetails i := by
  obtain ⟨name, hname⟩ := readShortName_slot (s := s) hi
  refine ⟨⟨name.1, _, _, _⟩, ?_, rfl⟩
  simp only [readSlot, read_slot hi, Nat.reduceLT, bind, Except.bind, hattr, if_true,
    read16_slot hi, read32_slot hi, hname]
  rfl

/-- A long-name slot and the slot after it are one entry, with the details of the latter. -/
theorem readSlot_long (hi : i + 1 < 16) (hattr : s.slotByte i 11 = FATAttributes.longName) :
    ∃ e, s.readSlot (32 * i) = .ok (some e, 32 * (i + 2)) ∧ details e = s.slotDetails (i + 1) := by
  have hi' : i < 16 := by omega
  have hnext : 32 * i + 32 = 32 * (i + 1) := by omega
  obtain ⟨name, hname⟩ := readLongName_slot (s := s) hi'
  refine ⟨⟨name, _, _, _⟩, ?_, rfl⟩
  have hshort : ¬ (s.slotByte i 11 = FATAttributes.shortName ∨
      s.slotByte i 11 = FATAttributes.shortNameFile) := by
    rw [hattr]
    decide
  simp only [readSlot, read_slot hi', Nat.reduceLT, bind, Except.bind, if_neg hshort, if_pos hattr,
    hname, hnext, read_slot hi, read16_slot hi, read32_slot hi]
  rfl

/-- A slot whose attributes say that it is unused gives no entry, and the loop goes on with the next
slot. -/
theorem readSlot_unused (hi : i < 16) (hattr : s.slotByte i 11 = FATAttributes.noEntry) :
    s.readSlot (32 * i) = .ok (none, 32 * (i + 1)) := by
  have hshort : ¬ (s.slotByte i 11 = FATAttributes.shortName ∨
      s.slotByte i 11 = FATAttributes.shortNameFile) := by
    rw [hattr]
    decide
  have hlong : s.slotByte i 11 ≠ FATAttributes.longName := by
    rw [hattr]
    decide
  simp only [readSlot, read_slot hi, Nat.reduceLT, bind, Except.bind, if_neg hshort, if_neg hlong,
    if_pos hattr]
  rfl

/-- From a slot on, the entries that are listed have the details of the given slots. -/
def Lists (s : Sector) (i : ℕ) (slots : List ℕ) : Prop :=
  ∃ dir, (∀ fuel, 16 ≤ i + fuel → s.readSlots fuel (32 * i) = .ok dir) ∧
    dir.map details = slots.map s.slotDetails

/-- Behind the last slot nothing is listed. -/
theorem lists_end : s.Lists 16 [] := by
  refine ⟨[], fun fuel _ => ?_, rfl⟩
  cases fuel <;> rfl

/-- A pass of the loop, and what is listed from its next index on. -/
theorem Lists.step {entry : Option DirectoryEntry} (hi : i < j) (hj : j ≤ 16)
    (hslot : s.readSlot (32 * i) = .ok (entry, 32 * j))
    (hentry : entry.toList.map details = slots.map s.slotDetails) {rest : List ℕ}
    (h : s.Lists j rest) : s.Lists i (slots ++ rest) := by
  obtain ⟨dir, hdir, hdetails⟩ := h
  refine ⟨entry.toList ++ dir, fun fuel hfuel => ?_, by simp [hdetails, hentry]⟩
  obtain _ | fuel := fuel
  · omega
  · have hlt : 32 * i < 512 := by omega
    simp only [readSlots, if_pos hlt, hslot, bind, Except.bind, hdir fuel (by omega)]

/-- The slots whose details are listed for a file with `k` long-name slots from slot `i` on. -/
def listedSlots : ℕ → ℕ → List ℕ
  | i, 0 => [i]
  | i, 1 => [i + 1]
  | i, k + 2 => (i + 1) :: listedSlots (i + 2) k

/-- A file with `k` long-name slots is listed `k / 2 + 1` times. -/
theorem length_listedSlots (i k : ℕ) : (listedSlots i k).length = k / 2 + 1 := by
  fun_induction listedSlots i k with
  | case1 => rfl
  | case2 => rfl
  | case3 i k ih =>
    rw [List.length_cons, ih]
    omega

/-- A file is listed once for every two of its long-name slots, and once more. -/
theorem Lists.file (hlong : ∀ j < k, s.slotByte (i + j) 11 = FATAttributes.longName)
    (hshort : s.slotByte (i + k) 11 = FATAttributes.shortName ∨
      s.slotByte (i + k) 11 = FATAttributes.shortNameFile)
    (hik : i + k < 16) (h : s.Lists (i + k + 1) slots) : s.Lists i (listedSlots i k ++ slots) := by
  fun_induction listedSlots i k with
  | case1 i =>
    obtain ⟨e, he, hdetails⟩ := readSlot_short hik hshort
    exact h.step (by omega) (by omega) he (by simp [hdetails])
  | case2 i =>
    obtain ⟨e, he, hdetails⟩ := readSlot_long hik (hlong 0 (by omega))
    exact h.step (by omega) (by omega) he (by simp [hdetails])
  | case3 i k ih =>
    have heq : i + 2 + k = i + (k + 2) := by omega
    obtain ⟨e, he, hdetails⟩ := readSlot_long (by omega : i + 1 < 16) (hlong 0 (by omega))
    have hlong' : ∀ j < k, s.slotByte (i + 2 + j) 11 = FATAttributes.longName := by
      intro j hj
      simpa [Nat.add_assoc, Nat.add_comm 2 j] using hlong (j + 2) (by omega)
    have hrest := ih hlong'
      (by rwa [heq]) (by omega) (by rwa [heq])
    have hentry : (some e).toList.map details = [i + 1].map s.slotDetails := by simp [hdetails]
    exact hrest.step (by omega) (by omega) he hentry

/-- A complete file: its long-name slots, and the short slot after them. -/
structure FileGroup where
  first : ℕ
  longSlots : ℕ

/-- The short slot of a file. -/
def FileGroup.shortSlot (g : FileGroup) : ℕ := g.first + g.longSlots

/-- The slots whose details are listed for some files. -/
def FileGroup.listed (g : FileGroup) : List ℕ := listedSlots g.first g.longSlots

/-- With one long-name slot at most, a file is listed once, by its short slot. -/
theorem FileGroup.listed_eq {g : FileGroup} (h : g.longSlots ≤ 1) : g.listed = [g.shortSlot] := by
  obtain ⟨first, _ | _ | k⟩ := g
  · rfl
  · rfl
  · simp at h

/-- Each file is listed at least once. -/
theorem FileGroup.length_flatMap_listed_ge (groups : List FileGroup) :
    groups.length ≤ (groups.flatMap FileGroup.listed).length := by
  induction groups with
  | nil => simp
  | cons g groups ih =>
    simp only [List.flatMap_cons, List.length_append, List.length_cons, FileGroup.listed,
      length_listedSlots] at ih ⊢
    omega

/-- Only files with at most one long-name slot are as many as the entries listed for them. -/
theorem FileGroup.longSlots_le_one {groups : List FileGroup}
    (h : (groups.flatMap FileGroup.listed).length = groups.length) :
    ∀ g ∈ groups, g.longSlots ≤ 1 := by
  induction groups with
  | nil => simp
  | cons g groups ih =>
    have hge := FileGroup.length_flatMap_listed_ge groups
    have hlisted : g.listed.length = g.longSlots / 2 + 1 := length_listedSlots _ _
    rw [List.flatMap_cons, List.length_append, hlisted, List.length_cons] at h
    intro g' hg'
    rcases List.mem_cons.mp hg' with rfl | hg'
    · omega
    · exact ih (by omega) g' hg'

/-- From a slot on, the sector is made of unused slots and of the given complete files. -/
inductive Layout (s : Sector) : ℕ → List FileGroup → Prop
  | done : Layout s 16 []
  | unused {i : ℕ} {groups : List FileGroup} (hi : i < 16)
      (hattr : s.slotByte i 11 = FATAttributes.noEntry) (hrest : Layout s (i + 1) groups) :
      Layout s i groups
  | file {i k : ℕ} {groups : List FileGroup} (hik : i + k < 16)
      (hlong : ∀ j < k, s.slotByte (i + j) 11 = FATAttributes.longName)
      (hshort : s.slotByte (i + k) 11 = FATAttributes.shortName ∨
        s.slotByte (i + k) 11 = FATAttributes.shortNameFile)
      (hrest : Layout s (i + k + 1) groups) : Layout s i (⟨i, k⟩ :: groups)

/-- A sector without files from a slot on. -/
theorem Layout.of_unused (hi : i ≤ 16)
    (hattr : ∀ j, i ≤ j → j < 16 → s.slotByte j 11 = FATAttributes.noEntry) : s.Layout i [] := by
  induction hn : 16 - i generalizing i with
  | zero =>
    obtain rfl : i = 16 := by omega
    exact .done
  | succ n ih =>
    refine .unused (by omega) (hattr i le_rfl (by omega))
      (ih (by omega) (fun j hj => ?_) (by omega))
    exact hattr j (by omega)

/-- What is listed of the files of a sector. -/
theorem Layout.lists {groups : List FileGroup} (h : s.Layout i groups) :
    s.Lists i (groups.flatMap FileGroup.listed) := by
  induction h with
  | done => exact lists_end
  | unused hi hattr _ ih =>
    have hentry : (none : Option DirectoryEntry).toList.map details = [].map s.slotDetails := rfl
    exact ih.step (by omega) (by omega) (readSlot_unused hi hattr) hentry
  | file hik hlong hshort _ ih => exact ih.file hlong hshort hik

end Sector

open Sector

/-- **A file with at most one long-name slot is listed once.** For every directory sector
of unused slots and complete files, `readDirectory` lists each file exactly once and in
order, with the attributes, the cluster and the size in its short slot, if and only if no
file has more than one long-name slot. -/
theorem FAT16.readSector_iff {fs : FAT16} {sectorIndex : Word} {groups : List FileGroup}
    (h : Layout (fs.device sectorIndex.toInt) 0 groups) :
    (∃ dir, fs.readSector sectorIndex = .ok dir ∧ dir.map details =
      groups.map fun g => slotDetails (fs.device sectorIndex.toInt) g.shortSlot) ↔
    ∀ g ∈ groups, g.longSlots ≤ 1 := by
  obtain ⟨dir, hdir, hdetails⟩ := h.lists
  have hread : fs.readSector sectorIndex = .ok dir := hdir 16 le_rfl
  rw [hread]
  constructor
  · rintro ⟨_, heq, hlisted⟩
    obtain rfl := Except.ok.inj heq
    have hlength := congrArg List.length (hdetails.symm.trans hlisted)
    rw [List.length_map, List.length_map] at hlength
    exact FileGroup.longSlots_le_one hlength
  · intro hle
    refine ⟨dir, rfl, hdetails.trans ?_⟩
    rw [List.flatMap_congr fun g hg => FileGroup.listed_eq (hle g hg), ← List.map_eq_flatMap,
      List.map_map]
    rfl

/-- A sector with one file in its first slots. -/
def oneFile (longSlots : ℕ) : Sector := fun i =>
  if i.val % 32 = 11 then
    if i.val / 32 < longSlots then 0x0F else if i.val / 32 = longSlots then 0x20 else 0x00
  else BitVec.ofNat 8 i.val

/-- A sector with one file, behind as many long-name slots as there are. -/
theorem layout_oneFile {k : ℕ} (hk : k < 16) : Layout (oneFile k) 0 [⟨0, k⟩] := by
  have hattr : ∀ i < 16, (oneFile k).slotByte i 11 =
      if i < k then 0x0F else if i = k then 0x20 else 0x00 := by
    intro i hi
    have hmod : (32 * i + 11) % 512 = 32 * i + 11 := by omega
    have hslot : (32 * i + 11) / 32 = i := by omega
    simp only [slotByte, oneFile, Fin.val_ofNat, hmod, hslot]
    rw [if_pos (by omega)]
  refine .file (by omega) (fun j hj => ?_) (Or.inr ?_)
    (Layout.of_unused (by omega) fun j hj hj' => ?_)
  · rw [hattr _ (by omega), if_pos (by omega)]
    rfl
  · rw [hattr _ (by omega), if_neg (by omega), if_pos (by omega)]
    rfl
  · rw [hattr _ hj', if_neg (by omega), if_neg (by omega)]
    rfl

/-- A file with one long-name slot. -/
theorem readSector_one : ∃ dir, (FAT16.ofDisk fun _ => oneFile 1).readSector 0 = .ok dir ∧
    dir.map details = [slotDetails (oneFile 1) 1] := by
  have hlayout : Layout ((FAT16.ofDisk fun _ => oneFile 1).device (0 : Word).toInt) 0 [⟨0, 1⟩] :=
    layout_oneFile (by decide)
  exact (FAT16.readSector_iff hlayout).mpr (by simp)

/-- A file with two long-name slots is listed twice, and not once. -/
theorem readSector_two : Layout (oneFile 2) 0 [⟨0, 2⟩] ∧
    (∃ dir, (FAT16.ofDisk fun _ => oneFile 2).readSector 0 = .ok dir ∧
      dir.map details = [slotDetails (oneFile 2) 1, slotDetails (oneFile 2) 2]) ∧
    ¬ ∃ dir, (FAT16.ofDisk fun _ => oneFile 2).readSector 0 = .ok dir ∧
      dir.map details = [slotDetails (oneFile 2) 2] := by
  have hlayout : Layout (oneFile 2) 0 [⟨0, 2⟩] := layout_oneFile (by decide)
  obtain ⟨dir, hdir, hdetails⟩ := hlayout.lists
  have hread : (FAT16.ofDisk fun _ => oneFile 2).readSector 0 = .ok dir := hdir 16 le_rfl
  refine ⟨hlayout, ⟨dir, hread, hdetails⟩, ?_⟩
  rintro ⟨dir', hread', hdetails'⟩
  obtain rfl := Except.ok.inj (hread.symm.trans hread')
  have hlength := congrArg List.length (hdetails.symm.trans hdetails')
  simp [FileGroup.listed, listedSlots] at hlength

end Muk
