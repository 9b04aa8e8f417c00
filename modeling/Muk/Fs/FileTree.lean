import Muk.Fs.Cat
import Muk.Fs.FilePath
import Muk.Fs.Folder
import Muk.Fs.Lookup
import Muk.Std.Strcmp

/-!
# The tree of files on a disk

A file system is a graph of folders with files in them, and a path names what its components lead
to from the root. `readFile` finds the entry of the file, and `cat` prints the bytes behind it:
together they print the contents of the file that the path names, but for zero bytes, and no bytes
where there is none.
This is so for the volumes within the limits of the driver: folders of one sector, names that it
lists as they are, and files that fill the single sectors of clusters below `0xF8`.
-/

namespace Muk

/-- What memory has around the buffers: around the copy of the path, behind each sector that is
read, and behind the copy of each name that is compared. -/
structure LookupMemory where
  path : PathMemory
  behind : ℕ → DirBytes
  names : ℕ → Cells

/-- A copy of some characters without a NUL, and what is behind it. -/
def copyBefore (text : List Byte) (behind : Cells) : Cells := fun x =>
  if x < text.length then text[x]? else behind (x - text.length)

/-- The characters of a string with a NUL behind them. -/
def cString (text : List Byte) : Cells := fun x => (text ++ [0])[x]?

namespace FileEntry

/-- `FileEntry()` -/
def missing : FileEntry where
  location := nfile
  size := nfile

/-- The loop of `readFile` over the entries of the directory, from entry `k` on. -/
def find (names : ℕ → Cells) (f : List Byte) : ℕ → List DirectoryEntry → Except ScanFault FileEntry
  | _, [] => .ok missing
  | k, entry :: rest => do
    let c ← strcmp (copyBefore entry.cname (names k)) (cString f) (entry.cname.length + 1) 0 0
    if c = 0 then .ok (of entry) else find names f (k + 1) rest

end FileEntry

namespace FAT16

end FAT16

/-- What a name in a folder stands for. -/
inductive Node (D : Type) where
  | folder (d : D)
  | file (contents : List Byte)

/-- The folders of a file system, with the files and folders in them. -/
structure FileTree (D : Type) where
  root : D
  entries : D → List (FileName × Node D)

/-- What a path leads to. -/
inductive Target (D : Type) where
  | node (n : Node D)
  | missing
  | notFolder

namespace FileTree

variable {D : Type} (t : FileTree D)

/-- What some names lead to, one after the other. -/
def follow : Node D → List (List Byte) → Target D
  | n, [] => .node n
  | .folder d, name :: names =>
    match findName (t.entries d) name with
    | some n => follow n names
    | none => .missing
  | .file _, _ :: _ => .notFolder

/-- What a path leads to. -/
def target (path : List (List Byte)) : Target D := t.follow (.folder t.root) path

end FileTree

/-! ## The tree on a disk -/

/-- The entry of a folder whose first sector is given. -/
structure FolderOn (disk : Disk) (e : DirectoryEntry) (sector : ℕ) (chain : List (BitVec 16)) :
    Prop where
  attributes : e.attributes = FATAttributes.shortName
  links : Chain (FAT16.tableEntry disk (FAT16.field16 (disk 0) 14)) FAT16.EndMark e.location chain
  chain_ne : chain ≠ []
  clusters : ∀ c ∈ chain, 2 ≤ c.toNat ∧ c < 0xF8
  sector_eq : sector = FAT16.clusterStart (disk 0) e.location

/-- The entry of a file with the given contents. -/
structure ContentsOn (disk : Disk) (e : DirectoryEntry) (contents : List Byte)
    (chain : List (BitVec 16)) : Prop where
  attributes : e.attributes = FATAttributes.shortNameFile
  file : FAT16.FileOn disk e chain
  printable : FAT16.Printable (disk 0) e chain
  contents_eq : contents = FAT16.fileContents disk e chain

/-- An entry is that of a node, with the folders at their sectors. -/
def NodeOn {D : Type} (disk : Disk) (sectorOf : D → ℕ) (e : DirectoryEntry) : Node D → Prop
  | .folder d => ∃ chain, FolderOn disk e (sectorOf d) chain
  | .file contents => ∃ chain, ContentsOn disk e contents chain

/-- The volume on a disk has the tree, with the folders at their sectors. -/
structure FileTree.OnDisk {D : Type} (t : FileTree D) (disk : Disk) (sectorOf : D → ℕ) : Prop where
  volume : FAT16.Volume (disk 0)
  rootStart_eq : FAT16.rootStart (disk 0) = 512
  root : sectorOf t.root = FAT16.rootStart (disk 0)
  folders : ∀ d, (disk (sectorOf d)).Folder (NodeOn disk sectorOf) 0 (t.entries d)

/-- The entries of a folder, as call `k` of `readDirectory(sector)` reads them. -/
def folderEntries {D : Type} (disk : Disk) (sectorOf : D → ℕ) (behind : ℕ → DirBytes) (k : ℕ)
    (d : D) : List DirectoryEntry :=
  ((disk (sectorOf d)).withBehind (behind k)).entries

variable {D : Type} {t : FileTree D} {disk : Disk} {sectorOf : D → ℕ} {fs : FAT16}

/-! ## The file of a path -/

/-- A path with a slash behind it ends with the slash. -/
theorem joinPath_getLast? {dirs : List (List Byte)} (hne : dirs ≠ []) :
    (joinPath dirs true).getLast? = some slash := by
  induction dirs with
  | nil => exact absurd rfl hne
  | cons c dirs ih =>
    cases dirs with
    | nil => simp [joinPath]
    | cons d rest =>
      rw [joinPath, List.getLast?_append, List.getLast?_cons, ih (List.cons_ne_nil d rest)]
      rfl

/-- A path of some components is not empty. -/
theorem joinPath_ne_nil {dirs : List (List Byte)} (hne : dirs ≠ []) : joinPath dirs true ≠ [] := by
  intro hnil
  have hlast := joinPath_getLast? hne
  rw [hnil] at hlast
  cases hlast

namespace FAT16

/-- With the root directory at 512, the reserved sectors are counted as they are. -/
theorem numReservedSectors_eq {b : Sector} (hroot : rootStart b = 512) :
    (readHeader b).numReservedSectors = field16 b 14 := by
  rw [rootStart] at hroot
  exact (to16bit_toInt_eq_iff _ _).mpr (show field16 b 14 < 0x8000 by omega)

/-- `walkSectors` has the sector of a folder first. -/
theorem walkSectorsAsked_folder {e : DirectoryEntry} {sector : ℕ} {chain : List (BitVec 16)}
    (hvolume : Volume (fs.device 0)) (hroot : rootStart (fs.device 0) = 512)
    (hinfo : fs.headerInfo = readHeader (fs.device 0)) (h : FolderOn fs.device e sector chain) :
    ∃ more, fs.walkSectorsAsked e.location = .ok ((sector : ℤ) :: more, fs.getFAT) ∧
      (BitVec.ofInt 32 sector).toInt = sector := by
  have hreserved := numReservedSectors_eq hroot
  have hchain : fs.FileChain e.location chain := by
    have hlinks := h.links
    rwa [← hreserved, ← hinfo] at hlinks
  obtain ⟨rest, rfl⟩ : ∃ rest, chain = e.location :: rest := by
    cases hchain with
    | nil _ => exact absurd rfl h.chain_ne
    | cons _ _ => exact ⟨_, rfl⟩
  obtain ⟨hge, hlt⟩ := h.clusters e.location List.mem_cons_self
  have hsize : fs.headerInfo.sectorSize ≠ 0 := by
    intro hzero
    have hsector : (readHeader (fs.device 0)).sectorSize.toNat = 512 :=
      (Converter.to16bit_toNat _ _).trans hvolume.sectorSize
    rw [← hinfo, hzero] at hsector
    exact absurd hsector (by decide)
  have htable : 0 ≤ fs.headerInfo.numReservedSectors := by
    rw [hinfo, hreserved]
    exact Int.natCast_nonneg _
  have hfirst : sectorIndex fs.headerInfo e.location = sector := by
    rw [hinfo, sectorIndex_eq_clusterStart hvolume.sectorSize hroot hge, h.sector_eq]
  obtain ⟨more, hwalk⟩ := walkSectorsAsked_ok htable hsize hlt
    ⟨_, walk_eq_chain hchain fun c hc => (h.clusters c hc).2⟩
  rw [hfirst] at hwalk
  refine ⟨more, hwalk, ?_⟩
  rw [← hfirst, hinfo]
  exact toInt_sectorIndex _ hlt

end FAT16

namespace FileTree.OnDisk

open FAT16

/-- They list the files and folders in it. -/
theorem listed_folderEntries (h : t.OnDisk disk sectorOf) (behind : ℕ → DirBytes) (k : ℕ) (d : D) :
    Listed (NodeOn disk sectorOf) (folderEntries disk sectorOf behind k d) (t.entries d) :=
  (h.folders d).listed _

/-- The loop over the folders ends at the folder that they lead to, or finds one missing. -/
theorem descend (h : t.OnDisk disk sectorOf) (behind : ℕ → DirBytes) {names : List (List Byte)}
    (hnames : ∀ c ∈ names, c ∉ dotNames) {k : ℕ} {current : Word} {d : D}
    (hinfo : fs.headerInfo = readHeader (disk 0)) (hdevice : fs.device = disk)
    (hcurrent : current.toInt = sectorOf d) :
    (∀ d', t.follow (.folder d) names = .node (.folder d') →
      descendAsked behind fs k current names =
        .ok (some (folderEntries disk sectorOf behind (k + names.length) d'))) ∧
    (t.follow (.folder d) names = .missing →
      descendAsked behind fs k current names = .ok none) := by
  have hnonneg : 0 ≤ current.toInt := by
    rw [hcurrent]
    exact Int.natCast_nonneg _
  have hentries (k : ℕ) :
      fs.directoryAt (behind k) current = folderEntries disk sectorOf behind k d := by
    rw [directoryAt, hdevice, hcurrent, folderEntries]
  induction names generalizing fs k current d with
  | nil =>
    refine ⟨fun d' hd' => ?_, fun hmissing => ?_⟩
    · obtain rfl : d = d' := by simpa [follow] using hd'
      rw [descendAsked_nil behind hnonneg, hentries]
      rfl
    · simp [follow] at hmissing
  | cons name rest ih =>
    obtain ⟨hname, hrest⟩ := List.forall_mem_cons.mp hnames
    cases hfind : findName (t.entries d) name with
    | none =>
      have hstep : t.follow (.folder d) (name :: rest) = .missing := by rw [follow, hfind]
      have hnone := (h.listed_folderEntries behind k d).find?_none hname hfind
      rw [← hentries] at hnone
      rw [hstep, descendAsked_missing behind hnonneg hnone]
      exact ⟨nofun, fun _ => rfl⟩
    | some n =>
      have hstep : t.follow (.folder d) (name :: rest) = t.follow n rest := by rw [follow, hfind]
      rw [hstep]
      cases n with
      | file contents =>
        cases rest with
        | nil => exact ⟨nofun, nofun⟩
        | cons _ _ => exact ⟨nofun, nofun⟩
      | folder d₁ =>
        obtain ⟨e, hfound, chain, hfolder⟩ :=
          (h.listed_folderEntries behind k d).find?_some hname hfind
        rw [← hentries] at hfound
        rw [← hdevice] at hfolder
        obtain ⟨more, hwalk, hsector⟩ := walkSectorsAsked_folder (by rw [hdevice]; exact h.volume)
          (by rw [hdevice]; exact h.rootStart_eq) (by rw [hdevice]; exact hinfo) hfolder
        rw [descendAsked_found behind hnonneg hfound, hwalk, ok_bind]
        have hnext (k : ℕ) : fs.getFAT.directoryAt (behind k)
            (BitVec.ofInt 32 (sectorOf d₁)) = folderEntries disk sectorOf behind k d₁ := by
          rw [directoryAt, hsector, folderEntries, ← hdevice]
          rfl
        have hlength : k + (name :: rest).length = k + 1 + rest.length := by
          rw [List.length_cons]
          omega
        rw [hlength]
        exact ih hrest hinfo hdevice hsector (by rw [hsector]; exact Int.natCast_nonneg _) hnext

/-- From the root, the loop ends at the folder of a path, or finds one missing. -/
theorem descend_target (h : t.OnDisk fs.device sectorOf) (behind : ℕ → DirBytes)
    {dirs : List (List Byte)} (hnames : ∀ c ∈ dirs, c ∉ dotNames) :
    (∀ d, t.target dirs = .node (.folder d) →
      descendAsked behind fs.mount 0 rootSector dirs =
        .ok (some (folderEntries fs.device sectorOf behind dirs.length d))) ∧
    (t.target dirs = .missing →
      descendAsked behind fs.mount 0 rootSector dirs = .ok none) := by
  obtain ⟨hinfo, hdevice⟩ := mount_info h.volume
  have hroot : rootSector.toInt = sectorOf t.root := by
    rw [h.root, h.rootStart_eq]
    rfl
  have hdescend := h.descend (k := 0) behind hnames hinfo hdevice hroot
  rwa [Nat.zero_add] at hdescend

end FileTree.OnDisk

/-! ## Reading a file -/

/-- A component of a path: not empty, without a slash or a NUL, and not a name of dots. -/
structure PathName (c : List Byte) : Prop where
  ne : c ≠ []
  plain : Plain c
  notDots : c ∉ dotNames

/-- The tokens of the folders are their names. -/
theorem PathMemory.CopyFits.tokenise {mem : PathMemory} {dirs : List (List Byte)}
    (h : CopyFits mem dirs true) (hne : dirs ≠ []) (hnames : ∀ c ∈ dirs, PathName c) :
    ∃ N, ∀ fuel, N ≤ fuel → mem.tokenise fuel (joinPath dirs true) = .ok dirs := by
  obtain ⟨behind, hbehind, htext, -⟩ := h.ends
  rw [Nat.max_eq_right (List.length_pos_iff.mpr hne)] at htext
  obtain ⟨before, c, hdirs, hextend⟩ := extendLast_split hne
  refine (tokenise_iff hne (fun c hc => (hnames c hc).plain)
    (fun c hc => (hnames c (List.mem_of_mem_tail hc)).ne) (joinPath_ne_nil hne) fun b hb => ?_).mpr
    ⟨h.accessible, behind, hbehind, htext, ?_⟩
  · exact Option.some.inj (hb.symm.trans h.accessible)
  · rw [hextend, extra, if_pos rfl, List.append_nil, hdirs]

/-- What `cat` prints of the entry of a file, and the size that it has. -/
theorem ContentsOn.cat {e : DirectoryEntry} {contents : List Byte} {chain : List (BitVec 16)}
    (h : ContentsOn fs.device e contents chain) (hvolume : FAT16.Volume (fs.device 0))
    (stack : Mem) : fs.mount.cat stack (.of e) = .ok (contents.filter (· ≠ 0)) ∧
      (FileEntry.of e).size.toNat = contents.length := by
  rw [h.contents_eq]
  refine ⟨h.printable.cat hvolume h.file stack, ?_⟩
  have hle := h.file.size_le hvolume
  rw [FAT16.fileContents, List.length_take, FAT16.bytesOf,
    length_flatMap_pieces fun n => Sector.length_toList (fs.device n)]
  exact (Nat.min_eq_left hle).symm

/-- The bytes of a short slot. -/
def shortSlot (name : List Byte) (attributes location : Byte) (fsize : List Byte) : List Byte :=
  name ++ attributes :: List.replicate 14 0 ++ [location, 0] ++ fsize

end Muk
