import Muk.Fs.Directory
import Muk.Std.Bitset

/-!
# What the parser of directory sectors touches

`readDirectory` reads from a buffer of 512 bytes and goes on behind it if a long-name slot is in
the last place; it asks the mask for bits, and it writes the names to buffers of their own. The
model here has the memory behind the buffer and keeps a list of all accesses. Where the model with
checked reads has a result, both agree.
-/

namespace Muk

/-- What the parser touches: a byte from the start of the sector's buffer on, a bit of the mask, or
a byte from the start of a name on. -/
inductive Access where
  | dirByte (index : ℕ)
  | maskBit (bit : ℤ)
  | nameByte (index : ℕ)
  deriving DecidableEq

/-- The access is to one of the 512 bytes, the 32 bits or the 32 characters. -/
def Access.InRange : Access → Prop
  | dirByte index => index < 512
  | maskBit bit => 0 ≤ bit ∧ bit < 32
  | nameByte index => index < 32

/-- The test of the bitset that is made from a mask, where the bit before the first one is the last
one. -/
theorem Bitset.ofWord_test (mask : Word) {bit : Word} (hlo : -32 < bit.toInt)
    (hhi : bit.toInt < 32) :
    (Bitset.ofWord mask >>= fun b : Bitset 32 => b.test bit) = .ok (testBit mask bit.toInt) := by
  have hparts : ∀ k : Fin 63, Bitset.chunk 32 (BitVec.ofInt 32 (k - 31)) = .ok 0 ∧
      Bitset.shiftOne ((BitVec.ofInt 32 (k - 31)).srem Bitset.numBits) =
        BitVec.twoPow 32 (((k - 31 : ℤ) % 32).toNat) := by
    decide +kernel
  obtain ⟨hchunk, hmask⟩ := hparts ⟨(bit.toInt + 31).toNat, by omega⟩
  have hbit : ((bit.toInt + 31).toNat : ℤ) - 31 = bit.toInt := by omega
  simp only [hbit, BitVec.ofInt_toInt] at hchunk hmask
  obtain ⟨b, hrun, hb⟩ := Bitset.ofWord_represents (n := 32) (Nat.le_refl 32) mask
  have hlt : (bit.toInt % 32).toNat < 32 := by omega
  have hword := hb ⟨_, hlt⟩
  rw [wordBit, Nat.div_eq_of_lt hlt, Nat.mod_eq_of_lt hlt] at hword
  rw [hrun, ok_bind, Bitset.test_eq hchunk hmask hlt]
  exact congrArg _ hword

/-- Memory from the start of a sector's buffer on. -/
abbrev DirBytes := ℕ → Byte

/-- A sector in memory, with what is behind it. -/
def Sector.withBehind (s : Sector) (behind : DirBytes) : DirBytes := fun i =>
  if h : i < 512 then s ⟨i, h⟩ else behind i

/-- A name that is being read, and the accesses so far. -/
structure NameState where
  name : List Byte
  addSeparator : Bool
  accesses : List Access

namespace NameState

/-- Before the loop. -/
def start : NameState := ⟨[], false, []⟩

def touch (t : NameState) (a : Access) : NameState := { t with accesses := t.accesses ++ [a] }

/-- `dir_entry->name[length] = b; length++`. -/
def store (t : NameState) (b : Byte) : NameState :=
  { t.touch (.nameByte t.name.length) with name := t.name ++ [b] }

/-- `dir_entry->name[length] = '\0'`. -/
def terminate (t : NameState) : NameState := t.touch (.nameByte t.name.length)

end NameState

/-- What a pass of the loop of `readDirectory` does. -/
structure SlotPass where
  entry : Option DirectoryEntry
  next : ℕ
  accesses : List Access

namespace DirBytes

variable (m : DirBytes)

/-- A pass of the loop over the characters of a short name. -/
def shortNamePass (index : ℕ) (t : NameState) (offset : ℕ) : NameState :=
  let t := t.touch (.dirByte (index + offset))
  let dirChar := m (index + offset)
  if dirChar ≠ 0x20 ∧ dirChar ≠ 0x10 then
    let t := if t.addSeparator then { t.store 0x2E with addSeparator := false } else t
    t.store (tolower dirChar)
  else { t with addSeparator := true }

/-- The name of a short slot. -/
def shortName (index : ℕ) : NameState :=
  ((List.range 12).foldl (shortNamePass m index) .start).terminate

/-- A pass of the loop over the characters of a long name. The byte is read where the bit is set. -/
def longNamePass (index : ℕ) (t : NameState) (j : ℕ) : NameState :=
  let t := t.touch (.maskBit (31 - j))
  if testBit Sector.bitMask (31 - j) then
    let t := t.touch (.dirByte (index + j))
    if m (index + j) ≠ 0xFF ∧ m (index + j) ≠ 0x00 then t.store (m (index + j)) else t
  else t

/-- The name of a long-name slot. -/
def longName (index : ℕ) : NameState :=
  ((List.range 33).foldl (longNamePass m index) .start).terminate

/-- `Converter::To_16bit(&(dir_bytes[index+26]))` -/
def location (index : ℕ) : BitVec 16 := Converter.to16bit (m (index + 26)) (m (index + 27))

/-- `Converter::To_32bit(&(dir_bytes[index+28]))` -/
def fsize (index : ℕ) : Word :=
  Converter.to32bit (m (index + 28)) (m (index + 29)) (m (index + 30)) (m (index + 31))

/-- The reads of the cluster and the size. -/
def locationSize (index : ℕ) : List Access :=
  [.dirByte (index + 26), .dirByte (index + 27), .dirByte (index + 28), .dirByte (index + 29),
    .dirByte (index + 30), .dirByte (index + 31)]

/-- The `memset` of the constructor of a `DirectoryEntry`, and the read of the attributes. -/
def newEntry (index : ℕ) : List Access :=
  (List.range 11).map .nameByte ++ [.dirByte (index + 11)]

/-- One pass of the loop of `readDirectory`. -/
def readSlot (index : ℕ) : SlotPass :=
  let attributes := m (index + 11)
  if attributes = FATAttributes.shortName ∨ attributes = FATAttributes.shortNameFile then
    let t := shortName m index
    { entry := some ⟨t.name, attributes, location m index, fsize m index⟩
      next := index + 32
      accesses := newEntry index ++ (locationSize index ++ t.accesses) }
  else if attributes = FATAttributes.longName then
    let t := longName m index
    let next := index + 32
    { entry := some ⟨t.name, m (next + 11), location m next, fsize m next⟩
      next := next + 32
      accesses := newEntry index ++ (t.accesses ++ .dirByte (next + 11) :: locationSize next) }
  else if attributes = FATAttributes.noEntry then
    { entry := none, next := index + 32, accesses := newEntry index }
  else { entry := some ⟨[], attributes, 0, 0⟩, next := index + 32, accesses := newEntry index }

/-- The loop of `readDirectory` from an index on: the entries, and all accesses. -/
def readSlots : ℕ → ℕ → Except FsFault (List DirectoryEntry × List Access)
  | 0, index => if index < 512 then .error .diverges else .ok ([], [])
  | fuel + 1, index =>
    if index < 512 then do
      let (rest, accesses) ← readSlots fuel (readSlot m index).next
      .ok ((readSlot m index).entry.toList ++ rest, (readSlot m index).accesses ++ accesses)
    else .ok ([], [])

/-- The indices at which the loop of `readDirectory` starts a pass. -/
def passes : ℕ → ℕ → List ℕ
  | 0, _ => []
  | fuel + 1, index =>
    if index < 512 then index :: passes fuel (readSlot m index).next else []

/-- The entries that the passes find. -/
def entries : List DirectoryEntry :=
  (passes m 512 0).flatMap fun index => (readSlot m index).entry.toList

/-- `FAT16::readDirectory(sector)`, on what `read_u8` returned. -/
def readDirectory : Except FsFault (List DirectoryEntry × List Access) := readSlots m 512 0

/-- The parser stays inside the sector, the mask and the names, and lists a slot once at most. -/
def StaysInside : Prop := ∃ dir accesses, readDirectory m = .ok (dir, accesses) ∧
  (∀ a ∈ accesses, a.InRange) ∧ dir.length ≤ 16

end DirBytes

/-! ## Names -/

namespace NameState

variable {t : NameState} {k : ℕ}

/-- Recording an access keeps the name. -/
@[simp] theorem touch_name (t : NameState) (a : Access) : (t.touch a).name = t.name := rfl

/-- Recording an access keeps the mark for a separator. -/
@[simp] theorem touch_addSeparator (t : NameState) (a : Access) :
    (t.touch a).addSeparator = t.addSeparator := rfl

/-- Recording an access adds it behind those before. -/
@[simp] theorem touch_accesses (t : NameState) (a : Access) :
    (t.touch a).accesses = t.accesses ++ [a] := rfl

/-- A stored character is the last one of the name. -/
@[simp] theorem store_name (t : NameState) (b : Byte) : (t.store b).name = t.name ++ [b] := rfl

/-- Storing a character keeps the mark for a separator. -/
@[simp] theorem store_addSeparator (t : NameState) (b : Byte) :
    (t.store b).addSeparator = t.addSeparator := rfl

/-- Storing a character is an access to the next byte of the name. -/
@[simp] theorem store_accesses (t : NameState) (b : Byte) :
    (t.store b).accesses = t.accesses ++ [.nameByte t.name.length] := rfl

/-- The NUL behind a name is not part of it. -/
@[simp] theorem terminate_name (t : NameState) : t.terminate.name = t.name := rfl

/-- The NUL is written behind the last character of the name. -/
@[simp] theorem terminate_accesses (t : NameState) :
    t.terminate.accesses = t.accesses ++ [.nameByte t.name.length] := rfl

/-- The characters so far, and whether a separator is to come. -/
def view (t : NameState) : List Byte × Bool := (t.name, t.addSeparator)

/-- After `k` bytes of a slot the name has `k` characters at most, with the separator that is
still to come. -/
structure Fits (k : ℕ) (t : NameState) : Prop where
  length_le : t.name.length + t.addSeparator.toNat ≤ k
  inRange : ∀ a ∈ t.accesses, a.InRange

/-- At the start the name is empty, and nothing was accessed. -/
theorem Fits.start : start.Fits 0 := ⟨by decide, by simp [NameState.start]⟩

end NameState

/-- What a byte of a short slot adds to a name. -/
def decodeChar (state : List Byte × Bool) (dirChar : Byte) : List Byte × Bool :=
  if dirChar ≠ 0x20 ∧ dirChar ≠ 0x10 then
    (state.1 ++ (if state.2 then [0x2E] else []) ++ [tolower dirChar], false)
  else (state.1, true)

namespace DirBytes

variable {m : DirBytes} {index k : ℕ} {t : NameState} {a : Access}

open NameState

/-- A pass over the bytes behind the sector decodes like one over the sector. -/
theorem view_shortNamePass (m : DirBytes) (index : ℕ) (t : NameState) (offset : ℕ) :
    (shortNamePass m index t offset).view = decodeChar t.view (m (index + offset)) := by
  unfold shortNamePass decodeChar
  by_cases hchar : m (index + offset) ≠ 0x20 ∧ m (index + offset) ≠ 0x10
  · cases hsep : t.addSeparator <;> simp only [if_pos hchar, view, hsep, touch_addSeparator] <;>
      simp [hsep]
  · simp only [if_neg hchar]
    rfl

/-- A pass adds the separator and a character, or one of them, or has one come later. -/
theorem shortNamePass_fits (h : t.Fits k) (hk : k < 12) (hindex : index + 32 ≤ 512) :
    (shortNamePass m index t k).Fits (k + 1) := by
  obtain ⟨hlength, hinRange⟩ := h
  have hread : (Access.dirByte (index + k)).InRange := show _ < 512 by omega
  unfold shortNamePass
  by_cases hchar : m (index + k) ≠ 0x20 ∧ m (index + k) ≠ 0x10
  · cases hsep : t.addSeparator with
    | true =>
      rw [hsep, Bool.toNat_true] at hlength
      simp only [if_pos hchar, touch_addSeparator, hsep, if_true]
      refine ⟨by simpa using hlength, ?_⟩
      simp only [store_accesses, store_name, touch_accesses, touch_name, List.forall_mem_append,
        List.forall_mem_singleton, List.length_append, List.length_singleton]
      exact ⟨⟨⟨hinRange, hread⟩, show _ < 32 by omega⟩, show _ < 32 by omega⟩
    | false =>
      rw [hsep, Bool.toNat_false] at hlength
      simp only [if_pos hchar, touch_addSeparator, hsep, Bool.false_eq_true, if_false]
      refine ⟨by simpa [hsep] using hlength, ?_⟩
      simp only [store_accesses, touch_accesses, touch_name, List.forall_mem_append,
        List.forall_mem_singleton]
      exact ⟨⟨hinRange, hread⟩, show _ < 32 by omega⟩
  · simp only [if_neg hchar]
    refine ⟨by simp only [touch_name, Bool.toNat_true]; omega, ?_⟩
    rw [touch_accesses, List.forall_mem_append, List.forall_mem_singleton]
    exact ⟨hinRange, hread⟩

/-- A short name is read and written inside the buffers. -/
theorem shortName_inRange (hindex : index + 32 ≤ 512) :
    ∀ a ∈ (shortName m index).accesses, a.InRange := by
  have h : ((List.range 12).foldl (shortNamePass m index) .start).Fits 12 :=
    foldl_range_invariant (fun k (t : NameState) => t.Fits k) Fits.start fun k hk t ht =>
      shortNamePass_fits ht hk hindex
  have hlength := h.length_le
  rw [shortName, terminate_accesses, List.forall_mem_append, List.forall_mem_singleton]
  exact ⟨h.inRange, show _ < 32 by omega⟩

/-- The last pass over a long name asks for bit −1. -/
theorem maskBit_mem_longName : .maskBit (-1) ∈ (longName m index).accesses := by
  have hlast : List.range 33 = List.range 32 ++ [32] := List.range_succ
  rw [longName, terminate_accesses, hlast, List.foldl_append, List.foldl_cons, List.foldl_nil,
    longNamePass]
  split_ifs <;> simp

/-! ## Slots -/

/-- A short slot gives an entry with its name, attributes, location and size. -/
theorem readSlot_short (h : m (index + 11) = FATAttributes.shortName ∨
      m (index + 11) = FATAttributes.shortNameFile) :
    readSlot m index =
      { entry := some ⟨(shortName m index).name, m (index + 11), location m index, fsize m index⟩
        next := index + 32
        accesses := newEntry index ++ (locationSize index ++ (shortName m index).accesses) } :=
  if_pos h

/-- A long-name slot gives an entry with its name, and with the other fields of the slot behind
it. -/
theorem readSlot_long (h : m (index + 11) = FATAttributes.longName) :
    readSlot m index =
      { entry := some ⟨(longName m index).name, m (index + 32 + 11), location m (index + 32),
          fsize m (index + 32)⟩
        next := index + 32 + 32
        accesses := newEntry index ++
          ((longName m index).accesses ++ .dirByte (index + 32 + 11) ::
            locationSize (index + 32)) } := by
  have hshort : ¬ (m (index + 11) = FATAttributes.shortName ∨
      m (index + 11) = FATAttributes.shortNameFile) := by
    rw [h]
    decide
  exact (if_neg hshort).trans (if_pos h)

/-- Nothing more is read of another slot, and an entry for it has no name. -/
theorem readSlot_other (hshort : ¬ (m (index + 11) = FATAttributes.shortName ∨
      m (index + 11) = FATAttributes.shortNameFile))
    (hlong : m (index + 11) ≠ FATAttributes.longName) :
    readSlot m index =
      { entry := if m (index + 11) = FATAttributes.noEntry then none
          else some ⟨[], m (index + 11), 0, 0⟩
        next := index + 32
        accesses := newEntry index } := by
  refine ((if_neg hshort).trans (if_neg hlong)).trans ?_
  split_ifs <;> rfl

/-- A slot with another attribute than that of a long name is parsed inside the buffers. -/
theorem readSlot_inRange (hattr : m (index + 11) ≠ FATAttributes.longName)
    (hindex : index + 32 ≤ 512) :
    (readSlot m index).next = index + 32 ∧ ∀ a ∈ (readSlot m index).accesses, a.InRange := by
  have hnew : ∀ a ∈ newEntry index, a.InRange := by
    simp only [newEntry, List.forall_mem_append, List.forall_mem_map, List.mem_range,
      List.forall_mem_singleton, Access.InRange]
    exact ⟨fun k hk => by omega, by omega⟩
  by_cases hshort : m (index + 11) = FATAttributes.shortName ∨
      m (index + 11) = FATAttributes.shortNameFile
  · rw [readSlot_short hshort]
    refine ⟨rfl, List.forall_mem_append.mpr ⟨hnew, List.forall_mem_append.mpr ⟨?_, ?_⟩⟩⟩
    · simp only [locationSize, List.forall_mem_cons, Access.InRange]
      exact ⟨by omega, by omega, by omega, by omega, by omega, by omega, by simp⟩
    · exact shortName_inRange hindex
  · rw [readSlot_other hshort hattr]
    exact ⟨rfl, hnew⟩

/-- A long-name slot makes the code use the mask of bit -1, an access outside the table of masks. -/
theorem maskBit_mem_readSlot (hattr : m (index + 11) = FATAttributes.longName) :
    .maskBit (-1) ∈ (readSlot m index).accesses := by
  rw [readSlot_long hattr]
  exact List.mem_append_right _ (List.mem_append_left _ maskBit_mem_longName)

/-- The next slot is at least 32 bytes further on. -/
theorem le_next (m : DirBytes) (index : ℕ) : index + 32 ≤ (readSlot m index).next := by
  by_cases hlong : m (index + 11) = FATAttributes.longName
  · rw [readSlot_long hlong]
    exact Nat.le_add_right _ _
  by_cases hshort : m (index + 11) = FATAttributes.shortName ∨
      m (index + 11) = FATAttributes.shortNameFile
  · rw [readSlot_short hshort]
  · rw [readSlot_other hshort hlong]

/-- A slot gives one entry at most. -/
theorem length_entry_le (m : DirBytes) (index : ℕ) :
    (readSlot m index).entry.toList.length ≤ 1 := by
  cases (readSlot m index).entry <;> simp

/-- The loop ends, and lists an entry for a slot at most. -/
theorem readSlots_ok {fuel : ℕ} (hfuel : 512 ≤ index + 32 * fuel) :
    ∃ dir accesses, readSlots m fuel index = .ok (dir, accesses) ∧
      32 * dir.length ≤ 512 - index + 31 := by
  induction fuel generalizing index with
  | zero => exact ⟨[], [], if_neg (by omega), by simp⟩
  | succ fuel ih =>
    by_cases hindex : index < 512
    · have hnext := le_next m index
      have hlength := length_entry_le m index
      obtain ⟨dir, accesses, hrun, hle⟩ :=
        ih (show 512 ≤ (readSlot m index).next + 32 * fuel by omega)
      refine ⟨_, _, by rw [readSlots, if_pos hindex, hrun]; rfl, ?_⟩
      rw [List.length_append]
      omega
    · exact ⟨[], [], if_neg hindex, by simp⟩

/-- `readDirectory` returns for every sector and whatever memory is behind it, with at most sixteen
entries. -/
theorem readDirectory_ok (m : DirBytes) :
    ∃ dir accesses, readDirectory m = .ok (dir, accesses) ∧ dir.length ≤ 16 := by
  obtain ⟨dir, accesses, hrun, hle⟩ := readSlots_ok (m := m) (show 512 ≤ 0 + 32 * 512 by omega)
  exact ⟨dir, accesses, hrun, by omega⟩

/-- `readDirectory` lists what its passes find. -/
theorem readSlots_passes {fuel : ℕ} {dir : List DirectoryEntry} {accesses : List Access}
    (h : readSlots m fuel index = .ok (dir, accesses)) :
    dir = (passes m fuel index).flatMap fun i => (readSlot m i).entry.toList := by
  induction fuel generalizing index dir accesses with
  | zero =>
    unfold readSlots at h
    split_ifs at h
    obtain ⟨rfl, -⟩ := Prod.mk.inj (Except.ok.inj h)
    rfl
  | succ fuel ih =>
    unfold readSlots at h
    split_ifs at h with hindex
    · obtain ⟨⟨rest, others⟩, hrest, heq⟩ := bind_eq_ok.mp h
      obtain ⟨rfl, -⟩ := Prod.mk.inj (Except.ok.inj heq)
      rw [passes, if_pos hindex, List.flatMap_cons, ← ih hrest]
    · obtain ⟨rfl, -⟩ := Prod.mk.inj (Except.ok.inj h)
      rw [passes, if_neg hindex]
      rfl

/-- The loop over the slots ends, with the entries of the memory that it reads. -/
theorem readDirectory_entries (m : DirBytes) :
    ∃ accesses, readDirectory m = .ok (m.entries, accesses) := by
  obtain ⟨dir, accesses, hrun, -⟩ := readDirectory_ok m
  obtain rfl := readSlots_passes hrun
  exact ⟨accesses, hrun⟩

/-- Without long-name slots, all accesses are in range. -/
theorem readSlots_inRange {fuel i : ℕ} {dir : List DirectoryEntry} {accesses : List Access}
    (hattr : ∀ j, i ≤ j → j < 16 → m (32 * j + 11) ≠ FATAttributes.longName)
    (hrun : readSlots m fuel (32 * i) = .ok (dir, accesses)) : ∀ a ∈ accesses, a.InRange := by
  induction fuel generalizing i dir accesses with
  | zero =>
    rw [readSlots] at hrun
    split_ifs at hrun
    obtain ⟨-, rfl⟩ := Prod.mk.inj (Except.ok.inj hrun)
    simp
  | succ fuel ih =>
    rw [readSlots] at hrun
    split_ifs at hrun with hindex
    · obtain ⟨hnext, hslot⟩ := readSlot_inRange (hattr i le_rfl (by omega)) (by omega)
      obtain ⟨⟨rest, others⟩, hrest, heq⟩ := bind_eq_ok.mp hrun
      obtain ⟨-, rfl⟩ := Prod.mk.inj (Except.ok.inj heq)
      have hstep : 32 * i + 32 = 32 * (i + 1) := by omega
      simp only [hnext, hstep] at hrest
      exact List.forall_mem_append.mpr
        ⟨hslot, ih (fun j hj => hattr j (by omega)) hrest⟩
    · obtain ⟨-, rfl⟩ := Prod.mk.inj (Except.ok.inj hrun)
      simp

/-- The first long-name slot is reached. -/
theorem maskBit_mem_readSlots {fuel i n : ℕ} {dir : List DirectoryEntry} {accesses : List Access}
    (hbefore : ∀ j, i ≤ j → j < i + n → m (32 * j + 11) ≠ FATAttributes.longName)
    (hattr : m (32 * (i + n) + 11) = FATAttributes.longName) (hin : i + n < 16)
    (hrun : readSlots m fuel (32 * i) = .ok (dir, accesses)) : .maskBit (-1) ∈ accesses := by
  have hindex : 32 * i < 512 := by omega
  induction n generalizing fuel i dir accesses with
  | zero =>
    obtain _ | fuel := fuel
    · rw [readSlots, if_pos hindex] at hrun
      cases hrun
    rw [readSlots, if_pos hindex] at hrun
    obtain ⟨⟨rest, others⟩, -, heq⟩ := bind_eq_ok.mp hrun
    obtain ⟨-, rfl⟩ := Prod.mk.inj (Except.ok.inj heq)
    exact List.mem_append_left _ (maskBit_mem_readSlot hattr)
  | succ n ih =>
    obtain _ | fuel := fuel
    · rw [readSlots, if_pos hindex] at hrun
      cases hrun
    rw [readSlots, if_pos hindex] at hrun
    obtain ⟨⟨rest, others⟩, hrest, heq⟩ := bind_eq_ok.mp hrun
    obtain ⟨-, rfl⟩ := Prod.mk.inj (Except.ok.inj heq)
    obtain ⟨hnext, -⟩ := readSlot_inRange (hbefore i le_rfl (by omega)) (by omega)
    have hstep : 32 * i + 32 = 32 * (i + 1) := by omega
    simp only [hnext, hstep] at hrest
    have hsum : i + 1 + n = i + (n + 1) := by omega
    refine List.mem_append_right _ (ih (fun j hj hjn => hbefore j ?_ ?_) ?_ ?_ hrest ?_)
    · omega
    · omega
    · rwa [hsum]
    · omega
    · omega

/-- The parser stays inside if and only if no attribute byte is that of a long name. -/
theorem staysInside_iff_attributes :
    m.StaysInside ↔ ∀ i < 16, m (32 * i + 11) ≠ FATAttributes.longName := by
  obtain ⟨dir, accesses, hrun, hlength⟩ := readDirectory_ok m
  constructor
  · rintro ⟨dir', accesses', hrun', hinRange, -⟩
    by_contra! hlong
    -- the least of the long-name slots is reached with every slot before it taken for itself
    have hfirst := Nat.find_spec hlong
    have hbefore : ∀ j, 0 ≤ j → j < 0 + Nat.find hlong →
        m (32 * j + 11) ≠ FATAttributes.longName := by
      intro j _ hj heq
      have hmin := Nat.find_min hlong (m := j) (by omega)
      exact hmin ⟨by omega, heq⟩
    have hmem := maskBit_mem_readSlots (i := 0) hbefore (by simpa using hfirst.2)
      (by simpa using hfirst.1) hrun'
    have hbit := (hinRange _ hmem).1
    omega
  · intro hattr
    exact ⟨dir, accesses, hrun, readSlots_inRange (i := 0) (fun j _ => hattr j) hrun, hlength⟩

end DirBytes

/-- A byte of a slot is one of the 512. -/
theorem Sector.withBehind_slot {s : Sector} {behind : DirBytes} {i k : ℕ} (hi : i < 16)
    (hk : k < 32) : s.withBehind behind (32 * i + k) = s.slotByte i k := by
  have hlt : 32 * i + k < 512 := by omega
  rw [withBehind, dif_pos hlt, slotByte]
  congr 1
  exact Fin.ext (Nat.mod_eq_of_lt hlt).symm

/-- **The parser stays inside a sector without long-name slots, and no other.** Whatever the 512
bytes and the memory behind them, `readDirectory` reads only the 512 bytes, asks only for bits 0
to 31, stays in the 32 characters of each name and returns at most 16 entries, if and only if no
slot has the attribute of a long name. In a long-name slot the loop goes on to bit −1. -/
theorem Sector.staysInside_iff (s : Sector) (behind : DirBytes) :
    (s.withBehind behind).StaysInside ↔ ∀ i < 16, s.slotByte i 11 ≠ FATAttributes.longName := by
  rw [DirBytes.staysInside_iff_attributes]
  constructor
  · intro h i hi
    rw [← withBehind_slot hi (by decide)]
    exact h i hi
  · intro h i hi
    rw [withBehind_slot hi (by decide)]
    exact h i hi

/-- A file with a long name. -/
theorem Sector.oneFile_not_staysInside :
    ¬ ((oneFile 1).withBehind fun _ => 0).StaysInside := by
  rintro ⟨dir, accesses, hrun, hinRange, -⟩
  have hmem := DirBytes.maskBit_mem_readSlots (i := 0) (n := 0) (fun j hj hj' => by omega)
    (by decide) (by decide) hrun
  have hbit := (hinRange _ hmem).1
  omega

/-! ## The parser with checked reads -/

namespace Sector

variable {s : Sector} {behind : DirBytes} {index : ℕ}

/-- A byte that was read with a check. -/
theorem read_withBehind {b : Byte} (h : s.read index = .ok b) : s.withBehind behind index = b := by
  unfold read at h
  split_ifs at h with hindex
  rw [withBehind, dif_pos hindex]
  exact Except.ok.inj h

/-- A location that is inside the sector is not changed by what is behind it. -/
theorem location_withBehind {b : BitVec 16} (h : s.read16 (index + 26) = .ok b) :
    (s.withBehind behind).location index = b := by
  obtain ⟨b0, h0, h⟩ := bind_eq_ok.mp h
  obtain ⟨b1, h1, h⟩ := bind_eq_ok.mp h
  rw [DirBytes.location, read_withBehind h0, read_withBehind h1]
  exact Except.ok.inj h

/-- A size that is inside the sector is not changed by what is behind it. -/
theorem fsize_withBehind {b : Word} (h : s.read32 (index + 28) = .ok b) :
    (s.withBehind behind).fsize index = b := by
  obtain ⟨b0, h0, h⟩ := bind_eq_ok.mp h
  obtain ⟨b1, h1, h⟩ := bind_eq_ok.mp h
  obtain ⟨b2, h2, h⟩ := bind_eq_ok.mp h
  obtain ⟨b3, h3, h⟩ := bind_eq_ok.mp h
  rw [DirBytes.fsize, read_withBehind h0, read_withBehind h1, read_withBehind h2,
    read_withBehind h3]
  exact Except.ok.inj h

/-- A short name that is inside the sector is not changed by what is behind it. -/
theorem shortName_withBehind {r : List Byte × Bool} (h : s.readShortName index = .ok r) :
    ((s.withBehind behind).shortName index).name = r.1 := by
  rw [DirBytes.shortName, NameState.terminate_name]
  refine congrArg Prod.fst (forLoop_eq_foldl NameState.view .start h ?_).symm
  intro offset _ t r hpass
  rw [Nat.zero_add] at hpass
  obtain ⟨b, hread, hpass⟩ := bind_eq_ok.mp hpass
  rw [DirBytes.view_shortNamePass, read_withBehind hread, NameState.view, decodeChar]
  split_ifs at hpass ⊢ <;> simp [(Except.ok.inj hpass).symm]

/-- A long name that is inside the sector is not changed by what is behind it. -/
theorem longName_withBehind {name : List Byte} (h : s.readLongName index = .ok name) :
    ((s.withBehind behind).longName index).name = name := by
  rw [DirBytes.longName, NameState.terminate_name]
  refine (forLoop_eq_foldl NameState.name .start h ?_).symm
  intro j _ t name hpass
  rw [Nat.zero_add] at hpass
  unfold DirBytes.longNamePass
  by_cases hbit : testBit bitMask (31 - j)
  · rw [if_pos hbit] at hpass
    obtain ⟨b, hread, hpass⟩ := bind_eq_ok.mp hpass
    simp only [if_pos hbit, read_withBehind hread]
    split_ifs at hpass ⊢
    · exact (Except.ok.inj hpass).symm
    · exact (Except.ok.inj hpass).symm
  · rw [if_neg hbit] at hpass
    simp only [if_neg hbit]
    exact (Except.ok.inj hpass).symm

/-- A pass of the loop with checked reads. -/
theorem readSlot_withBehind (behind : DirBytes) {r : Option DirectoryEntry × ℕ}
    (h : s.readSlot index = .ok r) :
    ((s.withBehind behind).readSlot index).entry = r.1 ∧
      ((s.withBehind behind).readSlot index).next = r.2 := by
  obtain ⟨attributes, hread, h⟩ := bind_eq_ok.mp h
  have hattr : s.withBehind behind (index + 11) = attributes := read_withBehind hread
  split_ifs at h with hshort hlong hnone
  · obtain ⟨location, hlocation, h⟩ := bind_eq_ok.mp h
    obtain ⟨fsize, hfsize, h⟩ := bind_eq_ok.mp h
    obtain ⟨name, hname, h⟩ := bind_eq_ok.mp h
    obtain rfl := Except.ok.inj h
    rw [DirBytes.readSlot_short (by rwa [hattr]), hattr, location_withBehind hlocation,
      fsize_withBehind hfsize, shortName_withBehind hname]
    exact ⟨rfl, rfl⟩
  · obtain ⟨name, hname, h⟩ := bind_eq_ok.mp h
    obtain ⟨attributes', hread', h⟩ := bind_eq_ok.mp h
    obtain ⟨location, hlocation, h⟩ := bind_eq_ok.mp h
    obtain ⟨fsize, hfsize, h⟩ := bind_eq_ok.mp h
    obtain rfl := Except.ok.inj h
    rw [DirBytes.readSlot_long (by rwa [hattr]), read_withBehind hread',
      location_withBehind hlocation, fsize_withBehind hfsize, longName_withBehind hname]
    exact ⟨rfl, rfl⟩
  · obtain rfl := Except.ok.inj h
    rw [DirBytes.readSlot_other (by rwa [hattr]) (by rwa [hattr]), hattr, if_pos hnone]
    exact ⟨rfl, rfl⟩
  · obtain rfl := Except.ok.inj h
    rw [DirBytes.readSlot_other (by rwa [hattr]) (by rwa [hattr]), hattr, if_neg hnone]
    exact ⟨rfl, rfl⟩

/-- Slots that are read inside the sector are read alike with memory behind it, and with more
fuel. -/
theorem readSlots_withBehind {fuel more : ℕ} {dir : List DirectoryEntry} (hle : fuel ≤ more)
    (h : s.readSlots fuel index = .ok dir) :
    ∃ accesses, (s.withBehind behind).readSlots more index = .ok (dir, accesses) := by
  induction more generalizing fuel index dir with
  | zero =>
    obtain rfl : fuel = 0 := by omega
    unfold readSlots at h
    split_ifs at h with hindex
    obtain rfl := Except.ok.inj h
    exact ⟨[], if_neg hindex⟩
  | succ more ih =>
    by_cases hindex : index < 512
    · obtain _ | fuel := fuel
      · rw [readSlots, if_pos hindex] at h
        cases h
      rw [readSlots, if_pos hindex] at h
      obtain ⟨⟨entry, next⟩, hslot, h⟩ := bind_eq_ok.mp h
      obtain ⟨rest, hrest, h⟩ := bind_eq_ok.mp h
      obtain rfl := Except.ok.inj h
      obtain ⟨hentry, hnext⟩ := readSlot_withBehind behind hslot
      obtain ⟨accesses, hrun⟩ := ih (by omega) hrest
      refine ⟨((s.withBehind behind).readSlot index).accesses ++ accesses, ?_⟩
      rw [DirBytes.readSlots, if_pos hindex, hnext, hrun, hentry]
      rfl
    · refine ⟨[], ?_⟩
      rw [DirBytes.readSlots, if_neg hindex]
      obtain _ | fuel := fuel <;>
      · rw [readSlots, if_neg hindex] at h
        obtain rfl := Except.ok.inj h
        rfl

end Sector

/-- What the parser with checked reads lists, the parser lists. -/
theorem FAT16.readSector_withBehind {fs : FAT16} {sectorIndex : Word} {dir : List DirectoryEntry}
    (behind : DirBytes) (h : fs.readSector sectorIndex = .ok dir) :
    ∃ accesses, ((fs.device sectorIndex.toInt).withBehind behind).readDirectory =
      .ok (dir, accesses) :=
  Sector.readSlots_withBehind (by decide) h
end Muk
