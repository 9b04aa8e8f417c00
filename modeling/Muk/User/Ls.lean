import Muk.Drivers.Print
import Muk.Fs.FileTree
import Muk.User.Shell

/-!
# ls

`ls` takes the last character off its argument, which is what memory has behind the line that
`parse` splits, and lists the folder of the rest. On a disk with a tree of files it prints a line
for each file and folder that the tree has there, or the message that there is no such folder.
-/

namespace Muk

/-- What the code must not do, or a loop that does not end. -/
inductive LsFault where
  | array (fault : ArrayFault)
  | directory (fault : DirectoryFault)
  | print (fault : PrintFault)

/-- `"%s- %x\t %d \tMay 14 17:04\t"` -/
def detailsFormat : List Byte :=
  [0x25, 0x73, 0x2D, 0x20, 0x25, 0x78, 0x09, 0x20, 0x25, 0x64, 0x20, 0x09, 0x4D, 0x61, 0x79, 0x20,
    0x31, 0x34, 0x20, 0x31, 0x37, 0x3A, 0x30, 0x34, 0x09]

/-- `"%s\n"` -/
def nameFormat : List Byte := [0x25, 0x73, 0x0A]

namespace DirectoryEntry

/-- `is_dir ? "d" : "-"` -/
def kind (e : DirectoryEntry) : List Byte :=
  if e.attributes ≠ FATAttributes.shortNameFile then [0x64] else [0x2D]

/-- What `ls` prints of an entry, for a stack with any contents. -/
def lsLine (stack : Mem) (e : DirectoryEntry) : Except PrintFault (List Byte) := do
  let details ← terminalPrintf stack detailsFormat
    [.string e.kind, .int (e.location.signExtend 32), .int e.fsize]
  let name ← terminalPrintf stack nameFormat [.string e.cname]
  .ok (details ++ name)

end DirectoryEntry

namespace FAT16

/-- The loop of `ls` over the entries. -/
def lsLines (stack : Mem) : List DirectoryEntry → Except PrintFault (List Byte)
  | [] => .ok []
  | e :: dir => do
    let line ← e.lsLine stack
    let rest ← lsLines stack dir
    .ok (line ++ rest)

/-- `ls` -/
def ls (fs : FAT16) (mem : LookupMemory) (stack : Mem) (fuel : ℕ) (args : List (List Byte)) :
    Except LsFault (List Byte) := do
  match args[1]? with
  | none => .error (.array .outOfBounds)
  | some cPath => do
    let str := StringView.ofChars cPath
    let trimPath ← (str.substr 0 (str.size - 1)).mapError .array
    match trimPath.getLast? with
    | none => .error (.array .outOfBounds) -- `trim_path[-1]`
    | some last => do
      -- append trailing slash
      let trimPath := if last ≠ slash then trimPath ++ [slash] else trimPath
      let (text, dir) ← (fs.readDirectoryPath mem.path mem.behind stack fuel trimPath).mapError
        .directory
      let lines ← (lsLines stack dir).mapError .print
      .ok (text ++ lines)

end FAT16

/-! ## A line of the listing -/

/-- The line of an entry: whether it is a folder, its first cluster, its size, and its name. -/
def DirectoryEntry.line (e : DirectoryEntry) : List Byte :=
  e.kind ++ [0x2D, 0x20, 0x30, 0x78] ++ hexadecimal (e.location.signExtend 32) ++ [0x09, 0x20] ++
    decimal e.fsize.toInt ++ [0x20, 0x09, 0x4D, 0x61, 0x79, 0x20, 0x31, 0x34, 0x20, 0x31, 0x37,
      0x3A, 0x30, 0x34, 0x09] ++ e.cname ++ [0x0A]

variable {e : DirectoryEntry}

/-- The path of a folder, as `ls` gives it to `readDirectory`. -/
def folderPath (dirs : List (List Byte)) : List Byte := pathOf dirs (!dirs.isEmpty)

variable {D : Type} {t : FileTree D} {sectorOf : D → ℕ} {fs : FAT16} {dirs : List (List Byte)}
  {mem : LookupMemory}

/-- `readDirectory` returns the entries of the folder of a path, or prints that it is missing. -/
theorem FileTree.OnDisk.readDirectoryPath (h : t.OnDisk fs.device sectorOf)
    (hnames : ∀ c ∈ dirs, PathName c) (hidle : mem.path.size ≤ 0)
    (hfits : PathMemory.PathFits mem.path dirs (!dirs.isEmpty)) (stack : Mem) :
    ∃ N, ∀ fuel, N ≤ fuel →
      (∀ d, t.target dirs = .node (.folder d) →
        fs.mount.readDirectoryPath mem.path mem.behind stack fuel (folderPath dirs) =
          .ok ([], folderEntries fs.device sectorOf mem.behind dirs.length d)) ∧
      (t.target dirs = .missing →
        fs.mount.readDirectoryPath mem.path mem.behind stack fuel (folderPath dirs) =
          .ok (directoryNotFound, [])) := by
  obtain ⟨hfolder, hmissing⟩ := h.descend_target mem.behind fun c hc => (hnames c hc).notDots
  obtain ⟨N, htokens⟩ : ∃ N, ∀ fuel, N ≤ fuel →
      mem.path.tokenise fuel (folderPath dirs).tail = .ok dirs := by
    cases dirs with
    | nil => exact (PathMemory.tokenise_nil hidle).mpr ⟨hfits, rfl⟩
    | cons name rest =>
      rw [PathMemory.PathFits] at hfits
      have hcopy : PathMemory.CopyFits mem.path (name :: rest) true :=
        (if_neg (joinPath_ne_nil (List.cons_ne_nil name rest))).mp hfits
      exact hcopy.tokenise (List.cons_ne_nil _ _) hnames
  have hlong : dirs ≠ [] → (folderPath dirs).length > 2 := by
    intro hne
    rw [PathMemory.PathFits, List.isEmpty_eq_false_iff.mpr hne] at hfits
    have hcopy : PathMemory.CopyFits mem.path dirs true :=
      (if_neg (joinPath_ne_nil hne)).mp hfits
    rw [folderPath, List.isEmpty_eq_false_iff.mpr hne]
    exact hcopy.long hne
  have hread : fs.mount.readPathAsked mem.behind (folderPath dirs) dirs =
      FAT16.descendAsked mem.behind fs.mount 0 FAT16.rootSector dirs := by
    rw [FAT16.readPathAsked]
    by_cases hne : dirs = []
    · rw [hne, ite_self]
    · rw [if_pos (hlong hne)]
  have hslash : folderPath dirs = slash :: (folderPath dirs).tail := rfl
  refine ⟨N, fun fuel hfuel => ⟨fun d htarget => ?_, fun htarget => ?_⟩⟩
  · rw [hslash, FAT16.readDirectoryPath_eq stack (htokens fuel hfuel)
      (hread.trans (hfolder d htarget))]
    rfl
  · rw [hslash, FAT16.readDirectoryPath_eq stack (htokens fuel hfuel)
      (hread.trans (hmissing htarget))]
    rfl

/-! ## A typed line -/

/-- A path has slashes, and the characters of its names. -/
theorem mem_joinPath {trailing : Bool} {b : Byte} (hb : b ∈ joinPath dirs trailing) :
    b = slash ∨ ∃ c ∈ dirs, b ∈ c := by
  have hslash : b ∈ (if trailing then [slash] else []) → b = slash := by
    cases trailing <;> simp
  induction dirs with
  | nil => exact .inl (hslash hb)
  | cons c dirs ih =>
    cases dirs with
    | nil =>
      rcases List.mem_append.mp hb with hb | hb
      · exact .inr ⟨c, List.mem_cons_self, hb⟩
      · exact .inl (hslash hb)
    | cons d rest =>
      rcases List.mem_append.mp hb with hb | hb
      · exact .inr ⟨c, List.mem_cons_self, hb⟩
      · rcases List.mem_cons.mp hb with rfl | hb
        · exact .inl rfl
        · rcases ih hb with heq | ⟨c', hc', hb⟩
          · exact .inl heq
          · exact .inr ⟨c', List.mem_cons_of_mem _ hc', hb⟩

/-- A line with the name of `ls`, some spaces, and the path of a folder. -/
structure LsLine where
  gap : List Byte
  dirs : List (List Byte)
  trailing : Bool
  gap_ne : gap ≠ []
  spaces : ∀ b ∈ gap, isSpace b = true
  names : ∀ c ∈ dirs, PathName c ∧ space ∉ c
  root : dirs = [] → trailing = false

namespace LsLine

/-- The path as it is typed. -/
def path (line : LsLine) : List Byte := pathOf line.dirs line.trailing

/-- The arguments of `ls`: its name, and the path with the character behind it. -/
def args (line : LsLine) (b : Byte) : List (List Byte) := [[0x6C, 0x73], line.path ++ [b]]

/-- The characters of the line. -/
def text (line : LsLine) : List Byte := [0x6C, 0x73] ++ (line.gap ++ line.path)

variable (line : LsLine)

/-- A path has at least its slash. -/
theorem path_ne : line.path ≠ [] := List.cons_ne_nil _ _

/-- The characters of the path are those of the names, and slashes. -/
theorem path_plain : ∀ b ∈ line.path, b ≠ 0 ∧ isSpace b = false := by
  intro b hb
  rcases List.mem_cons.mp hb with rfl | hb
  · decide
  · rcases mem_joinPath hb with rfl | ⟨c, hc, hb⟩
    · decide
    · obtain ⟨hname, hspace⟩ := line.names c hc
      exact ⟨(hname.plain b hb).1, decide_eq_false fun heq => hspace (heq ▸ hb)⟩

/-- A line has no NUL, neither in its words nor between them. -/
theorem text_ne_zero : ∀ b ∈ line.text, b ≠ 0 := by
  have hcmd : ∀ b ∈ ([0x6C, 0x73] : List Byte), b ≠ 0 := by decide
  intro b hb
  simp only [text, List.mem_append] at hb
  rcases hb with hb | hb | hb
  · exact hcmd b hb
  · rw [of_decide_eq_true (line.spaces b hb)]
    decide
  · exact (line.path_plain b hb).1

/-- The tokens of the line are the command and the path, as the path has no space in it. -/
theorem tokens : Command.emptyToken line.text ++ words isSpace line.text =
    [[0x6C, 0x73], line.path] := by
  have hcmd : ∀ b ∈ ([0x6C, 0x73] : List Byte), isSpace b = false := by decide
  have htokens : Command.emptyToken line.text ++ words isSpace line.text =
      [0x6C, 0x73] :: words isSpace line.path :=
    Command.tokens_eq hcmd line.spaces fun hnil => absurd hnil line.gap_ne
  rw [htokens, words_word (fun b hb => (line.path_plain b hb).2) line.path_ne]

end LsLine

end Muk
