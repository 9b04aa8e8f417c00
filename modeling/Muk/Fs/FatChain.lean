import Muk.Fs.Fat16

/-!
# Chains of a FAT16 allocation table

The allocation table of a volume has 16-bit entries and as many sectors as the volume
needs. `walk` reads the low bytes of the first 248 entries, so that it follows the chains
that stay among these, and no others.
-/

namespace Muk

namespace FAT16

variable {fs : FAT16} {c start : BitVec 16} {chain : List (BitVec 16)}

/-- The entry of a cluster in an allocation table that starts at a sector of a disk. -/
def tableEntry (disk : Disk) (first : ℤ) (c : BitVec 16) : BitVec 16 :=
  let sector := disk (first + (2 * c.toNat / 512 : ℕ))
  Converter.to16bit (sector (Fin.ofNat 512 (2 * c.toNat)))
    (sector (Fin.ofNat 512 (2 * c.toNat + 1)))

/-- The entry of a cluster in the allocation table after the reserved sectors. -/
def entry (fs : FAT16) : BitVec 16 → BitVec 16 :=
  tableEntry fs.device fs.headerInfo.numReservedSectors

/-- The entries that end a chain. -/
def EndMark (c : BitVec 16) : Prop := 0xFFF8 ≤ c

instance : DecidablePred EndMark := fun c => inferInstanceAs (Decidable (0xFFF8 ≤ c))

/-- The clusters of a file on the disk, from its first one on. -/
abbrev FileChain (fs : FAT16) : BitVec 16 → List (BitVec 16) → Prop := Chain fs.entry EndMark

/-- In the first sector, `walk` takes the low byte of an entry for the whole. -/
theorem nextByte_getFAT (hc : c < 0xF8) :
    (fs.getFAT.fat.nextByte c).toNat = (fs.entry c).toNat % 256 := by
  have hlt : c.toNat < 248 := BitVec.lt_def.mp hc
  have hsector : 2 * c.toNat / 512 = 0 := by omega
  simp only [FileAllocationTable.nextByte, getFAT, entry, tableEntry, hsector,
    Converter.to16bit_toNat,
    BitVec.toNat_setWidth, Nat.mul_comm c.toNat 2, Int.natCast_zero, Int.add_zero]
  have := (fs.device fs.headerInfo.numReservedSectors (Fin.ofNat 512 (2 * c.toNat))).isLt
  omega

/-- A link to one of the first 248 clusters is taken as it is. -/
theorem nextByte_eq_entry (hc : c < 0xF8) (hentry : fs.entry c < 0xF8) :
    fs.getFAT.fat.nextByte c = fs.entry c := by
  apply BitVec.eq_of_toNat_eq
  have hlt : (fs.entry c).toNat < 248 := BitVec.lt_def.mp hentry
  rw [nextByte_getFAT hc, Nat.mod_eq_of_lt (by omega)]

/-- The low byte of an end mark ends the walk. -/
theorem nextByte_endMark (hc : c < 0xF8) (hend : EndMark (fs.entry c)) :
    ¬ fs.getFAT.fat.nextByte c < 0xF8 := by
  have hle : 65528 ≤ (fs.entry c).toNat := BitVec.le_def.mp hend
  have hlt := (fs.entry c).isLt
  rw [BitVec.lt_def, nextByte_getFAT hc]
  simp only [BitVec.reduceToNat, not_lt]
  omega

/-- A chain among the first 248 clusters is found. -/
theorem walk_eq_chain (hchain : fs.FileChain start chain) (hlt : ∀ c ∈ chain, c < 0xF8) :
    fs.getFAT.fat.walk start = .ok chain := by
  rw [FileAllocationTable.walk_eq_ok_iff]
  cases hchain with
  | nil hend =>
    refine .nil fun h => ?_
    have hle : 65528 ≤ start.toNat := BitVec.le_def.mp hend
    have : start.toNat < 248 := BitVec.lt_def.mp h
    omega
  | cons hend hrest =>
    refine Chain.congr (.cons hend hrest) (List.cons_ne_nil _ _)
      (fun b hb => not_not.mpr (hlt b hb)) (fun b hb hnext => ?_) (fun b hb hstop => ?_)
    · exact nextByte_eq_entry (hlt b hb) (hlt _ hnext)
    · exact nextByte_endMark (hlt b hb) hstop

/-- **`walk` follows the chains of the first 248 clusters.** For every allocation table and
every chain that it holds, of whatever length, `walk` returns the clusters of the chain if
and only if all of them are below `0xF8`. -/
theorem walk_eq_chain_iff (hchain : fs.FileChain start chain) :
    fs.getFAT.fat.walk start = .ok chain ↔ ∀ c ∈ chain, c < 0xF8 := by
  constructor
  · exact FileAllocationTable.lt_of_walk
  · exact walk_eq_chain hchain

/-- A device with the given allocation table in the sectors from 1 on. -/
def ofEntries (entries : BitVec 16 → BitVec 16) : FAT16 := ofDisk fun n i =>
  let e := entries (BitVec.ofInt 16 ((n - 1) * 256 + (i / 2 : ℕ)))
  if i.val % 2 = 0 then e.setWidth 8 else (e >>> 8).setWidth 8

/-- A file in the clusters 2, 3 and 5. -/
def nearEntries : BitVec 16 → BitVec 16 :=
  fun c => if c = 2 then 3 else if c = 3 then 5 else 0xFFFF

/-- The chain of the file in near clusters is found whole. -/
theorem walk_near : (ofEntries nearEntries).getFAT.fat.walk 2 = .ok [2, 3, 5] := by
  have hchain : (ofEntries nearEntries).FileChain 2 [2, 3, 5] :=
    .cons (by decide) (.cons (by decide) (.cons (by decide) (.nil (by decide))))
  exact (walk_eq_chain_iff hchain).mpr (by simp)

/-- A file in the clusters 2 and 256. -/
def farEntries : BitVec 16 → BitVec 16 :=
  fun c => if c = 0 then 0xFFF8 else if c = 2 then 0x100 else 0xFFFF

/-- The second cluster of the file is lost: `walk` goes on at cluster 0 instead. -/
theorem walk_far : (ofEntries farEntries).FileChain 2 [2, 0x100] ∧
    (ofEntries farEntries).getFAT.fat.walk 2 = .ok [2, 0] ∧
    (ofEntries farEntries).getFAT.fat.walk 2 ≠ .ok [2, 0x100] := by
  have hwalk : (ofEntries farEntries).getFAT.fat.walk 2 = .ok [2, 0] := by
    rw [FileAllocationTable.walk_eq_ok_iff]
    exact .cons (by decide) (.cons (by decide) (.nil (by decide)))
  refine ⟨?_, hwalk, by rw [hwalk]; simp⟩
  exact .cons (by decide) (.cons (by decide) (.nil (by decide)))

end FAT16

end Muk
