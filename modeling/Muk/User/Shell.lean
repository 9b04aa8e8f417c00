import Muk.Drivers.Print
import Muk.Fs.FileTree
import Muk.User.Line

/-!
# The shell

`parse` splits a line into its words and calls the command that was added under the first one,
with all words as arguments.
-/

namespace Muk

namespace Ext

/-- `CmdPair`, with the functions of any type. -/
structure CmdPair (F : Type) where
  cmd : List Byte
  ptr : F

/-- `Library` -/
abbrev Library (F : Type) := List (CmdPair F)

variable {F : Type}

/-- `strcmp((char*)it->getCmd(), cmd) == 0`, for copies with NULs. -/
def CmdPair.isCmd (it : CmdPair F) (cmd : List Byte) : Except ScanFault Bool := do
  let c ← strcmp (cString it.cmd) (cString cmd) (it.cmd.length + 1) 0 0
  .ok (c = 0)

namespace Library

/-- `Library::add` -/
def add (lib : Library F) (cmd : List Byte) (ptr : F) : Library F := lib ++ [⟨cmd, ptr⟩]

/-- `Library::present` -/
def present : Library F → List Byte → Except ScanFault Bool
  | [], _ => .ok false
  | it :: lib, cmd => do
    if ← it.isCmd cmd then .ok true else present lib cmd

/-- `Library::get` -/
def get : Library F → List Byte → Except ScanFault (Option F)
  | [], _ => .ok none
  | it :: lib, cmd => do
    if ← it.isCmd cmd then .ok (some it.ptr) else get lib cmd

/-- The command that a name stands for: the first one that was added under it. -/
def find (lib : Library F) (cmd : List Byte) : Option F :=
  (lib.find? fun it => it.cmd = cmd).map CmdPair.ptr

end Library

/-- The functions that `load` adds. -/
inductive Program where
  | ps
  | ls
  | cat
  deriving DecidableEq

/-- `load`, for an empty library. -/
def load : Library Program :=
  let lib : Library Program := []
  let lib := lib.add [0x70, 0x73] .ps
  let lib := lib.add [0x6C, 0x73] .ls
  lib.add [0x63, 0x61, 0x74] .cat

variable {lib : Library F} {it : CmdPair F} {cmd : List Byte}

namespace Library

/-- The first command that was added under a name is the one that it stands for. -/
theorem find_add (lib : Library F) (name cmd : List Byte) (ptr : F) :
    (lib.add name ptr).find cmd = (lib.find cmd).or (if name = cmd then some ptr else none) := by
  rw [find, add, List.find?_append, find]
  cases lib.find? fun it => it.cmd = cmd with
  | some it => rfl
  | none => by_cases heq : name = cmd <;> simp [heq]

end Library

/-! ## A line -/

variable {line : List Byte} {mem : PathMemory} {behind : ℕ → List Byte} {c : Byte}

end Ext

end Muk
