import Muk.Memory.HeapRefusal
import Muk.Std.Strcmp

/-!
# std::string

The constructors and the operators of a string allocate one byte for each of its characters and
copy them. Nothing is given back to the heap, so that a string keeps its block for good.
-/

namespace Muk

/-- The kernel heap, with the payload sizes of its blocks. -/
structure TrackedHeap (σ : Type) where
  heap : Heap σ
  sizes : List ℕ

/-- `std::string` -/
structure StdString where
  length : Word
  buff : Word

variable {σ : Type} (M : PagedMemory σ Fault)

/-- Memory, as the functions that follow a C string find it. -/
def PagedMemory.cells (s : σ) : Cells := fun a => (M.load8 s (BitVec.ofNat 32 a)).toOption

/-- The scan for the NUL in `strlen`, over less than `2 ^ 32` bytes. -/
def scanNul (s : σ) (ptr : Word) : Except ScanFault (List Byte) :=
  readString (M.cells s) (2 ^ 32) ptr.toNat

/-- `strlen` -/
def strlen (s : σ) (ptr : Word) : Except Fault Word :=
  match scanNul M s ptr with
  | .ok text => .ok (BitVec.ofNat 32 text.length)
  | .error .pageFault => .error .pageFault
  | .error .diverges => .error .diverges

/-- Copy `n` bytes, one after the other. -/
def copyBytes (s : σ) (dest src : Word) (n : ℕ) : Except Fault σ :=
  forLoop (fun i s => do
    let b ← M.load8 s (src + BitVec.ofNat 32 i)
    M.store8 s (dest + BitVec.ofNat 32 i) b) 0 n s

/-- `strncpy`, whose parameter `n` is an `int`. -/
def strncpy (s : σ) (ptr_dest ptr_src n : Word) : Except Fault σ :=
  copyBytes M s ptr_dest ptr_src n.toInt.toNat

namespace TrackedHeap

/-- The same blocks in another memory. -/
def withMem (g : TrackedHeap σ) (s : σ) : TrackedHeap σ :=
  { g with heap := { g.heap with mem := s } }

/-- `new char[size]` -/
def newChars (g : TrackedHeap σ) (size : Word) : Except Fault (Word × TrackedHeap σ) := do
  let (addr, h) ← Heap.vmalloc M g.heap size
  .ok (addr, { heap := h, sizes := if size = 0 then g.sizes else g.sizes ++ [size.toNat] })

end TrackedHeap

namespace StdString

open TrackedHeap

/-- `std::string::npos` -/
def npos : Word := 0xFFFFFFFF

/-- A new array with a copy of some characters. -/
def ofArray (g : TrackedHeap σ) (src length : Word) : Except Fault (StdString × TrackedHeap σ) := do
  let (buff, g) ← newChars M g length
  let s ← strncpy M g.heap.mem buff src length
  .ok ({ length := length, buff := buff }, g.withMem s)

/-- `string()` -/
def construct : StdString := { length := 0, buff := 0 }

/-- `string(char* init_val)` -/
def ofChars (g : TrackedHeap σ) (init_val : Word) : Except Fault (StdString × TrackedHeap σ) := do
  let length ← strlen M g.heap.mem init_val
  ofArray M g init_val length

/-- `string(char init_val)` -/
def ofChar (g : TrackedHeap σ) (init_val : Byte) : Except Fault (StdString × TrackedHeap σ) := do
  let (buff, g) ← newChars M g 1
  let s ← M.store8 g.heap.mem buff init_val
  .ok ({ length := 1, buff := buff }, g.withMem s)

/-- `string(const string& other)` -/
def ofString (g : TrackedHeap σ) (other : StdString) : Except Fault (StdString × TrackedHeap σ) :=
  ofArray M g other.buff other.length

/-- `operator=`, from a string other than the one assigned to. -/
def assign (g : TrackedHeap σ) (other : StdString) : Except Fault (StdString × TrackedHeap σ) :=
  ofArray M g other.buff other.length

/-- `operator=`, from a C string. -/
def assignChars (g : TrackedHeap σ) (other : Word) : Except Fault (StdString × TrackedHeap σ) := do
  let length ← strlen M g.heap.mem other
  ofArray M g other length

/-- `substr`, whose array `dest` is copied by the constructor and never given back. -/
def substr (g : TrackedHeap σ) (str : StdString) (pos count : Word) :
    Except Fault (StdString × TrackedHeap σ) := do
  let count := if str.length < pos + count ∨ count = npos then str.length - pos else count
  let (dest, g) ← newChars M g (count + 1#32)
  let s ← copyBytes M g.heap.mem dest (str.buff + pos) count.toNat
  let s ← M.store8 s (dest + count) 0
  ofChars M (g.withMem s) dest

/-- `operator+=`, with a string. -/
def append (g : TrackedHeap σ) (str s2 : StdString) : Except Fault (StdString × TrackedHeap σ) := do
  let (newBuff, g) ← newChars M g (str.length + s2.length)
  let s ← strncpy M g.heap.mem newBuff str.buff str.length
  let s ← strncpy M s (newBuff + str.length) s2.buff s2.length
  .ok ({ length := str.length + s2.length, buff := newBuff }, g.withMem s)

/-- `operator+=`, with a character. -/
def appendChar (g : TrackedHeap σ) (str : StdString) (s2 : Byte) :
    Except Fault (StdString × TrackedHeap σ) := do
  let (newBuff, g) ← newChars M g (str.length + 1#32)
  let s ← strncpy M g.heap.mem newBuff str.buff str.length
  let s ← M.store8 s (newBuff + str.length) s2
  .ok ({ length := str.length + 1#32, buff := newBuff }, g.withMem s)

/-- `operator==` -/
def equals (s : σ) (str rhs : StdString) : Except ScanFault Bool := do
  let c ← strcmp (M.cells s) (M.cells s) (2 ^ 32) str.buff.toNat rhs.buff.toNat
  .ok (decide (c = 0))

end StdString

end Muk
