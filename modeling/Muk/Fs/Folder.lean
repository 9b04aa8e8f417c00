import Muk.Fs.Path
import Muk.Fs.ShortName

/-!
# Folders

A folder is a sector of slots. The name of a file or a folder in it is a short name, or a name of
up to thirteen characters in a long-name slot before the short one. The first slots of a folder
that is not the root directory are those of the folder itself and of the one above. `readDirectory`
lists these two, and after them the files and folders in order.
-/

namespace Muk

/-- The places of the characters in a long-name slot, each a unit of two bytes. -/
def longNameOffsets : List ℕ := [1, 3, 5, 7, 9, 14, 16, 18, 20, 22, 24, 28, 30]

/-- The bit of the mask for a place in the slot is set. -/
def isNamePlace (j : ℕ) : Bool := testBit Sector.bitMask (31 - j)

/-- A byte that is not skipped in a long name. -/
def isLongChar (b : Byte) : Bool := decide (b ≠ 0xFF ∧ b ≠ 0x00)

/-- The characters of a long name that fits in one slot. -/
structure LongFileName where
  chars : List Byte
  chars_ne : chars ≠ []
  chars_le : chars.length ≤ 13
  printable : ∀ c ∈ chars, 0x20 ≤ c ∧ c ≤ 0x7E

namespace LongFileName

/-- The units of the slot: the characters, a zero, and padding. -/
def units (n : LongFileName) : List (BitVec 16) :=
  (n.chars.map (BitVec.setWidth 16) ++ 0 :: List.replicate 12 0xFFFF).take 13

end LongFileName

/-- The name of a file or a folder. -/
inductive FileName where
  | short (n : ShortFileName)
  | long (n : LongFileName)

/-- The name as a path has it. -/
def FileName.text : FileName → List Byte
  | .short n => n.text
  | .long n => n.chars

/-- The first file or folder of a name. -/
def findName {α : Type} (es : List (FileName × α)) (name : List Byte) : Option α :=
  (es.find? fun e => e.1.text = name).map Prod.snd

/-- The names of a folder in itself, and of the folder above. -/
def dotNames : List (List Byte) := [[0x2E], [0x2E, 0x2E]]

/-- The eleven bytes that hold a name of dots. -/
def dotBytes (name : List Byte) : List Byte := name ++ List.replicate (11 - name.length) 0x20

namespace Sector

variable (s : Sector)

/-- The first eleven bytes of a slot. -/
def nameBytes (i : ℕ) : List Byte := (List.range 11).map (s.slotByte i)

/-- The units of a long-name slot. -/
def longNameUnits (i : ℕ) : List (BitVec 16) :=
  longNameOffsets.map fun k => s.slotByte i (k + 1) ++ s.slotByte i k

/-- A directory entry with the details of a short slot. -/
def slotEntry (i : ℕ) (name : List Byte) : DirectoryEntry where
  name := name
  attributes := s.slotByte i 11
  location := Converter.to16bit (s.slotByte i 26) (s.slotByte i 27)
  fsize := Converter.to32bit (s.slotByte i 28) (s.slotByte i 29) (s.slotByte i 30) (s.slotByte i 31)

/-- The attributes of a folder or a file. -/
def ShortAttributes (i : ℕ) : Prop :=
  s.slotByte i 11 = FATAttributes.shortName ∨ s.slotByte i 11 = FATAttributes.shortNameFile

/-- From a slot on, a sector has the given files and folders, and what they are holds of their
entries. A long name has one slot, and a short name has padding before its dot. -/
inductive Folder {α : Type} (holds : DirectoryEntry → α → Prop) : ℕ → List (FileName × α) → Prop
  | done : Folder holds 16 []
  | unused {i : ℕ} {es : List (FileName × α)} (hi : i < 16)
      (hattr : s.slotByte i 11 = FATAttributes.noEntry) (hrest : Folder holds (i + 1) es) :
      Folder holds i es
  | dots {i : ℕ} {es : List (FileName × α)} {name : List Byte} (hi : i < 16)
      (hdots : name ∈ dotNames)
      (hattr : s.slotByte i 11 = FATAttributes.shortName) (hname : s.nameBytes i = dotBytes name)
      (hrest : Folder holds (i + 1) es) : Folder holds i es
  | short {i : ℕ} {es : List (FileName × α)} {n : ShortFileName} {a : α} (hi : i < 16)
      (hdot : n.base.length < 8 ∨ n.ext = []) (hattr : s.ShortAttributes i)
      (hname : s.nameBytes i = n.bytes) (hnode : holds (s.slotEntry i n.text) a)
      (hrest : Folder holds (i + 1) es) : Folder holds i ((.short n, a) :: es)
  | long {i : ℕ} {es : List (FileName × α)} {n : LongFileName} {a : α} (hi : i + 1 < 16)
      (hlong : s.slotByte i 11 = FATAttributes.longName) (hattr : s.ShortAttributes (i + 1))
      (hname : s.longNameUnits i = n.units) (hnode : holds (s.slotEntry (i + 1) n.chars) a)
      (hrest : Folder holds (i + 2) es) : Folder holds i ((.long n, a) :: es)

end Sector

/-! ## Names -/

/-- Names of dots are listed as they are. -/
theorem foldl_dotBytes {name : List Byte} (h : name ∈ dotNames) :
    ((dotBytes name ++ [FATAttributes.shortName]).foldl decodeChar ([], false)).1 = name := by
  have hall : ∀ name ∈ dotNames, ((dotBytes name ++ [FATAttributes.shortName]).foldl decodeChar
      ([], false)).1 = name := by decide
  exact hall name h

namespace LongFileName

/-- The characters that `readDirectory` takes from the low bytes of the units. -/
theorem filter_units (n : LongFileName) :
    (n.units.map (BitVec.setWidth 8)).filter isLongChar = n.chars := by
  have hlow : ∀ c : Byte, (c.setWidth 16).setWidth 8 = c := by
    intro c
    rw [BitVec.setWidth_setWidth_of_le _ (by decide), BitVec.setWidth_eq]
  have hchars : n.chars.filter isLongChar = n.chars := by
    refine List.filter_eq_self.mpr fun c hc => decide_eq_true ?_
    obtain ⟨hlo, hhi⟩ := n.printable c hc
    constructor
    · rintro rfl
      exact absurd hhi (by decide)
    · rintro rfl
      exact absurd hlo (by decide)
  have hpadding : ∀ k, ((0 :: List.replicate 12 (0xFFFF : BitVec 16)).take k |>.map
      (BitVec.setWidth 8)).filter isLongChar = [] := by
    intro k
    refine List.filter_eq_nil_iff.mpr fun b hb => ?_
    obtain ⟨u, hu, rfl⟩ := List.mem_map.mp hb
    rcases List.mem_cons.mp (List.mem_of_mem_take hu) with rfl | hu
    · decide
    · rw [(List.mem_replicate.mp hu).2]
      decide
  have hmap : (n.chars.map (BitVec.setWidth 16)).map (BitVec.setWidth 8) = n.chars := by
    rw [List.map_map]
    exact (List.map_congr_left fun c _ => hlow c).trans (List.map_id _)
  have hlength := n.chars_le
  rw [units, List.take_append, List.take_of_length_le (by rwa [List.length_map]), List.map_append,
    hmap, List.filter_append, hpadding, hchars, List.append_nil]

end LongFileName

namespace DirBytes

variable {m : DirBytes} {index : ℕ}

/-- The passes over a long name collect the bytes at the places of its characters. -/
theorem name_foldl_longNamePass (places : List ℕ) (t : NameState) :
    (places.foldl (longNamePass m index) t).name = t.name ++
      ((places.filter isNamePlace).map fun j => m (index + j)).filter isLongChar := by
  induction places generalizing t with
  | nil => simp
  | cons j places ih =>
    rw [List.foldl_cons, ih, longNamePass]
    by_cases hplace : isNamePlace j = true
    · have hbit : testBit Sector.bitMask (31 - j) = true := hplace
      rw [List.filter_cons_of_pos hplace, List.map_cons]
      simp only [if_pos hbit]
      by_cases hchar : m (index + j) ≠ 0xFF ∧ m (index + j) ≠ 0x00
      · have hkept : isLongChar (m (index + j)) = true := decide_eq_true hchar
        rw [if_pos hchar, List.filter_cons_of_pos hkept]
        simp
      · rw [if_neg hchar, List.filter_cons_of_neg (by rwa [isLongChar, decide_eq_true_eq])]
        rfl
    · have hbit : ¬ testBit Sector.bitMask (31 - j) = true := hplace
      rw [List.filter_cons_of_neg hplace]
      simp only [if_neg hbit]
      rfl

/-- The entries of a pass, and those of the passes after it. -/
theorem entries_pass {i j fuel : ℕ} {entry : Option DirectoryEntry} (hi : i < 16)
    (hslot : (m.readSlot (32 * i)).entry = entry ∧ (m.readSlot (32 * i)).next = 32 * j) :
    (m.passes (fuel + 1) (32 * i)).flatMap (fun index => (m.readSlot index).entry.toList) =
      entry.toList ++
        (m.passes fuel (32 * j)).flatMap fun index => (m.readSlot index).entry.toList := by
  rw [passes, if_pos (by omega), List.flatMap_cons, hslot.1, hslot.2]

/-- The name of a long-name slot. -/
theorem longName_eq : (longName m index).name =
    (longNameOffsets.map fun k => m (index + k)).filter isLongChar := by
  have hplaces : (List.range 33).filter isNamePlace = longNameOffsets := by decide
  rw [longName, NameState.terminate_name, name_foldl_longNamePass, hplaces]
  rfl

end DirBytes

/-! ## What is listed -/

/-- The entries that are listed of a folder: those of dots, and one for each file and folder with
its name. -/
inductive Listed {α : Type} (holds : DirectoryEntry → α → Prop) :
    List DirectoryEntry → List (FileName × α) → Prop
  | nil : Listed holds [] []
  | dots {e : DirectoryEntry} {dir : List DirectoryEntry} {es : List (FileName × α)}
      (hname : e.name ∈ dotNames) (hrest : Listed holds dir es) : Listed holds (e :: dir) es
  | entry {e : DirectoryEntry} {dir : List DirectoryEntry} {es : List (FileName × α)}
      {n : FileName} {a : α} (hname : e.name = n.text) (hnode : holds e a)
      (hrest : Listed holds dir es) : Listed holds (e :: dir) ((n, a) :: es)

namespace Sector

variable {s : Sector} {behind : DirBytes} {i : ℕ} {α : Type} {holds : DirectoryEntry → α → Prop}
  {es : List (FileName × α)}

/-- There is nothing in unused slots. -/
theorem Folder.of_unused (hi : i ≤ 16)
    (hattr : ∀ j, i ≤ j → j < 16 → s.slotByte j 11 = FATAttributes.noEntry) :
    s.Folder holds i [] := by
  induction hn : 16 - i generalizing i with
  | zero =>
    obtain rfl : i = 16 := by omega
    exact .done
  | succ n ih =>
    exact .unused (by omega) (hattr i le_rfl (by omega))
      (ih (by omega) (fun j hj => hattr j (by omega)) (by omega))

/-- The eleven bytes of a slot, wherever the sector lies. -/
theorem nameBytes_withBehind (hi : i < 16) :
    (List.range 11).map (fun offset => s.withBehind behind (32 * i + offset)) = s.nameBytes i :=
  List.map_congr_left fun offset hoffset =>
    withBehind_slot hi (by have := List.mem_range.mp hoffset; omega)

/-- The entry of a short slot, by its name. -/
theorem readSlot_shortEntry (hi : i < 16) (hattr : s.ShortAttributes i) {name : List Byte}
    (hname : ((s.nameBytes i ++ [s.slotByte i 11]).foldl decodeChar ([], false)).1 = name) :
    ((s.withBehind behind).readSlot (32 * i)).entry = some (s.slotEntry i name) ∧
      ((s.withBehind behind).readSlot (32 * i)).next = 32 * (i + 1) := by
  have hbyte (k : ℕ) (hk : k < 32) : s.withBehind behind (32 * i + k) = s.slotByte i k :=
    withBehind_slot hi hk
  have hattr' : s.withBehind behind (32 * i + 11) = FATAttributes.shortName ∨
      s.withBehind behind (32 * i + 11) = FATAttributes.shortNameFile := by
    rwa [hbyte 11 (by decide)]
  rw [DirBytes.readSlot_short hattr', DirBytes.shortName_eq (nameBytes_withBehind hi),
    DirBytes.location, DirBytes.fsize, hbyte 11 (by decide), hbyte 26 (by decide),
    hbyte 27 (by decide), hbyte 28 (by decide), hbyte 29 (by decide), hbyte 30 (by decide),
    hbyte 31 (by decide), hname]
  exact ⟨rfl, rfl⟩

/-- The entry of a long-name slot, with the details of the slot after it. -/
theorem readSlot_longEntry (hi : i + 1 < 16) (hlong : s.slotByte i 11 = FATAttributes.longName)
    {n : LongFileName} (hname : s.longNameUnits i = n.units) :
    ((s.withBehind behind).readSlot (32 * i)).entry = some (s.slotEntry (i + 1) n.chars) ∧
      ((s.withBehind behind).readSlot (32 * i)).next = 32 * (i + 2) := by
  have hi' : i < 16 := Nat.lt_of_succ_lt hi
  have hbyte (k : ℕ) (hk : k < 32) :
      s.withBehind behind (32 * i + 32 + k) = s.slotByte (i + 1) k := by
    rw [← withBehind_slot hi hk, Nat.mul_succ]
  have hplaces : ∀ k ∈ longNameOffsets, k < 32 := by decide
  have hunits : (longNameOffsets.map fun k => s.withBehind behind (32 * i + k)) =
      (s.longNameUnits i).map (BitVec.setWidth 8) := by
    rw [longNameUnits, List.map_map]
    refine List.map_congr_left fun k hk => ?_
    rw [withBehind_slot hi' (hplaces k hk)]
    exact (BitVec.setWidth_append_eq_right).symm
  have hlong' : s.withBehind behind (32 * i + 11) = FATAttributes.longName := by
    rwa [withBehind_slot hi' (by decide)]
  rw [DirBytes.readSlot_long hlong', DirBytes.longName_eq, hunits, hname, n.filter_units,
    DirBytes.location, DirBytes.fsize, hbyte 11 (by decide), hbyte 26 (by decide),
    hbyte 27 (by decide), hbyte 28 (by decide), hbyte 29 (by decide), hbyte 30 (by decide),
    hbyte 31 (by decide)]
  exact ⟨rfl, rfl⟩

/-- An unused slot has no entry. -/
theorem readSlot_noEntry (hi : i < 16) (hattr : s.slotByte i 11 = FATAttributes.noEntry) :
    ((s.withBehind behind).readSlot (32 * i)).entry = none ∧
      ((s.withBehind behind).readSlot (32 * i)).next = 32 * (i + 1) := by
  have hattr' : s.withBehind behind (32 * i + 11) = FATAttributes.noEntry := by
    rwa [withBehind_slot hi (by decide)]
  rw [DirBytes.readSlot_other (by rw [hattr']; decide) (by rw [hattr']; decide), if_pos hattr']
  exact ⟨rfl, rfl⟩

/-- The entries of the passes from a slot on. -/
theorem Folder.passes (h : s.Folder holds i es) {fuel : ℕ} (hfuel : 16 ≤ i + fuel) :
    Listed holds (((s.withBehind behind).passes fuel (32 * i)).flatMap fun index =>
      ((s.withBehind behind).readSlot index).entry.toList) es := by
  induction h generalizing fuel with
  | done => obtain _ | fuel := fuel <;> exact .nil
  | unused hi hattr _ ih =>
    obtain _ | fuel := fuel
    · omega
    rw [DirBytes.entries_pass hi (readSlot_noEntry hi hattr)]
    exact ih (by omega)
  | dots hi hdots hattr hname _ ih =>
    obtain _ | fuel := fuel
    · omega
    have hdecode := foldl_dotBytes hdots
    rw [← hname, ← hattr] at hdecode
    rw [DirBytes.entries_pass hi (readSlot_shortEntry hi (.inl hattr) hdecode)]
    exact .dots hdots (ih (by omega))
  | @short i es n a hi hdot hattr hname hnode _ ih =>
    obtain _ | fuel := fuel
    · omega
    have hdecode := n.foldl_bytes hattr
    rw [← hname, n.listed_eq_text_iff.mpr hdot] at hdecode
    rw [DirBytes.entries_pass hi (readSlot_shortEntry hi hattr hdecode)]
    exact .entry rfl hnode (ih (by omega))
  | long hi hlong _ hname hnode _ ih =>
    obtain _ | fuel := fuel
    · omega
    rw [DirBytes.entries_pass (Nat.lt_of_succ_lt hi) (readSlot_longEntry hi hlong hname)]
    exact .entry rfl hnode (ih (by omega))

/-- `readDirectory` lists the files and folders of a folder in order. -/
theorem Folder.listed (h : s.Folder holds 0 es) (behind : DirBytes) :
    Listed holds (s.withBehind behind).entries es :=
  h.passes (by decide)

end Sector

/-! ## Search -/

/-- The text of a file name has no NUL among its characters. -/
theorem FileName.text_ne_zero (n : FileName) : ∀ b ∈ n.text, b ≠ 0 := by
  have hlower : ∀ c : Byte, NameChar c → tolower c ≠ 0 := by decide
  intro b hb
  cases n with
  | long n =>
    rintro rfl
    exact absurd (n.printable 0 hb).1 (by decide)
  | short n =>
    have hmap : ∀ cs : List Byte, (∀ c ∈ cs, NameChar c) → b ∈ cs.map tolower → b ≠ 0 := by
      intro cs hcs hmem
      obtain ⟨c, hc, rfl⟩ := List.mem_map.mp hmem
      exact hlower c (hcs c hc)
    rcases List.mem_append.mp hb with hbase | hext
    · exact hmap _ n.nameChar_base hbase
    · split_ifs at hext
      · simp at hext
      · rcases List.mem_cons.mp hext with rfl | hext
        · decide
        · exact hmap _ n.nameChar_ext hext

namespace Listed

variable {α : Type} {holds : DirectoryEntry → α → Prop} {dir : List DirectoryEntry}
  {es : List (FileName × α)} {name : List Byte}

/-- The entry of a file or folder has its name for a C string. -/
theorem cname_eq {e : DirectoryEntry} {n : FileName} (h : e.name = n.text) : e.cname = n.text := by
  rw [DirectoryEntry.cname, h]
  exact List.takeWhile_eq_self_iff.mpr fun b hb => decide_eq_true (n.text_ne_zero b hb)

/-- A name of dots is its own C string. -/
theorem cname_dots {e : DirectoryEntry} (h : e.name ∈ dotNames) : e.cname ∈ dotNames := by
  have hall : ∀ name ∈ dotNames, name.takeWhile (· ≠ 0) = name := by decide
  rw [DirectoryEntry.cname, hall _ h]
  exact h

/-- A name that no file or folder has is not found. -/
theorem find?_none (h : Listed holds dir es) (hname : name ∉ dotNames)
    (hfind : findName es name = none) : dir.find? (fun e => e.cname = name) = none := by
  induction h with
  | nil => rfl
  | @dots e dir es hdots _ ih =>
    rw [List.find?_cons_of_neg, ih hfind]
    simp only [decide_eq_true_eq]
    rintro rfl
    exact hname (cname_dots hdots)
  | @entry e dir es n a htext _ _ ih =>
    by_cases heq : n.text = name
    · simp [findName, heq] at hfind
    · rw [List.find?_cons_of_neg (by simpa [cname_eq htext] using heq)]
      exact ih (by simpa [findName, heq] using hfind)

/-- The first file or folder of a name is found. -/
theorem find?_some {a : α} (h : Listed holds dir es) (hname : name ∉ dotNames)
    (hfind : findName es name = some a) :
    ∃ e, dir.find? (fun e => e.cname = name) = some e ∧ holds e a := by
  induction h with
  | nil => simp [findName] at hfind
  | @dots e dir es hdots _ ih =>
    rw [List.find?_cons_of_neg]
    · exact ih hfind
    · simp only [decide_eq_true_eq]
      rintro rfl
      exact hname (cname_dots hdots)
  | @entry e dir es n b htext hnode _ ih =>
    by_cases heq : n.text = name
    · have hb : b = a := by simpa [findName, heq] using hfind
      rw [List.find?_cons_of_pos (by simpa [cname_eq htext] using heq)]
      exact ⟨e, rfl, hb ▸ hnode⟩
    · rw [List.find?_cons_of_neg (by simpa [cname_eq htext] using heq)]
      exact ih (by simpa [findName, heq] using hfind)

end Listed

end Muk
