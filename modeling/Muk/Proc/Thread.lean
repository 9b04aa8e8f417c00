import Muk.Lib.Record
import Muk.Memory.PhysManager

/-!
# Threads

A `Thread` object holds the saved registers of a thread, the links of the ring of all
threads, and the stack itself. `start_thread` fills in the object that `new` returns,
seeds the stack for the first switch, and links the object into the ring.
-/

namespace Muk

/-! ## Layout on i686 -/

namespace Registers

/-- `sizeof(registers)` -/
def size : ℕ := 76

def edi : ℕ := 16
def esi : ℕ := 20
def ebp : ℕ := 24
def esp : ℕ := 28
def ebx : ℕ := 32
def edx : ℕ := 36
def ecx : ℕ := 40
def eax : ℕ := 44
def eip : ℕ := 56
def eflags : ℕ := 64
def useresp : ℕ := 68

end Registers

namespace Thread

def threadId : ℕ := 0
def procId : ℕ := 4
def title : ℕ := 8
def stateReg : ℕ := 12
def entryPtr : ℕ := 88
def stackPtr : ℕ := 92
def prev : ℕ := 96
def next : ℕ := 100
def stack : ℕ := 104

/-- The end of `uint32_t stack[THREAD_STACK_SIZE]`. -/
def tStatus : ℕ := 65640

/-- `sizeof(Thread)` -/
def size : ℕ := 65644

/-- `&thread->field` -/
def field (thread : Word) (offset : ℕ) : Word := thread + BitVec.ofNat 32 offset

end Thread

open Thread (field)

/-- The registers a switch of threads deals with. -/
structure Cpu where
  ebx : Word
  esi : Word
  edi : Word
  ebp : Word
  esp : Word
  eip : Word
  interrupts : Bool
  deriving DecidableEq

/-- Memory, the processor, and the variables of the thread list, the scheduler and the
timer. -/
structure Kernel where
  mem : Mem
  cpu : Cpu
  threadRoot : Word
  threadRunning : Word
  nextTid : Word
  started : Bool
  schedulerRunning : Bool
  timerTicks : BitVec 64
  timerTenths : Word
  isSleeping : Bool

/-- The arguments of `start_thread`, and the addresses that `new Thread()` and
`new char[255]` return. -/
structure NewThread where
  title : List Byte
  entry : Word
  addr : Word
  titleBuffer : Word

namespace Kernel

/-- The constructor of `Thread`. -/
def threadConstructor (m : Mem) (thread titleBuffer : Word) : Mem :=
  storeFields m thread [(Thread.procId, 1), (Thread.title, titleBuffer), (Thread.prev, 0),
    (Thread.next, 0), (Thread.tStatus, 0)]

/-- `PUSH(thread->stack_ptr, ...)`: move the pointer down and store through it. -/
def pushWord (m : Mem) (thread v : Word) : Mem :=
  let m := store32 m (field thread Thread.stackPtr) (load32 m (field thread Thread.stackPtr) - 4#32)
  store32 m (load32 m (field thread Thread.stackPtr)) v

/-- `start_thread` up to the seed of the stack: our first interrupt "ret" eip, and zeroes. -/
def seedStack (m : Mem) (thread : Word) : Mem :=
  let m := pushWord m thread (load32 m (field thread Thread.entryPtr))
  let m := pushWord m thread 0
  let m := pushWord m thread 0
  let m := pushWord m thread 0
  pushWord m thread 0

/-- The registers `start_thread` sets. -/
def seedRegisters (m : Mem) (thread : Word) : Mem :=
  let m := storeFields m thread [(Thread.stateReg + Registers.eax, 0),
    (Thread.stateReg + Registers.ebx, 0), (Thread.stateReg + Registers.ecx, 0),
    (Thread.stateReg + Registers.edx, 0), (Thread.stateReg + Registers.esi, 0),
    (Thread.stateReg + Registers.edi, 0), (Thread.stateReg + Registers.useresp, 0),
    (Thread.stateReg + Registers.ebp, 0)]
  storeFields m thread [
    (Thread.stateReg + Registers.eip, load32 m (field thread Thread.entryPtr)),
    (Thread.stateReg + Registers.esp, load32 m (field thread Thread.stackPtr)),
    (Thread.stateReg + Registers.eflags, (1#32 <<< 9) ||| 1#32)]

/-- A new `Thread` object before it is linked, with 4 KiB of local thread stack. -/
def initThread (m : Mem) (tid : Word) (t : NewThread) : Mem :=
  let m := threadConstructor m t.addr t.titleBuffer
  let m := storeList m (load32 m (field t.addr Thread.title)) (t.title ++ [0])
  let m := storeFields m t.addr [(Thread.threadId, tid), (Thread.entryPtr, t.entry),
    (Thread.stackPtr, field t.addr Thread.stack + 4096#32)]
  seedRegisters (seedStack m t.addr) t.addr

/-- `for(; t->next != thread_root; t = t->next)`: the last thread of the ring. A walk
longer than the address space never ends. -/
def lastThread (m : Mem) (threadRoot t : Word) : ℕ → Except Fault Word
  | 0 => .error .diverges
  | fuel + 1 =>
    let next := load32 m (field t Thread.next)
    if next ≠ threadRoot then lastThread m threadRoot next fuel else .ok t

/-- `start_thread` -/
def startThread (k : Kernel) (t : NewThread) : Except Fault Kernel := do
  let m := initThread k.mem k.nextTid t
  let k := { k with nextTid := k.nextTid + 1 }
  if k.threadRoot = 0 then
    .ok { k with mem := store32 m (field t.addr Thread.next) t.addr, threadRoot := t.addr }
  else do
    let last ← lastThread m k.threadRoot k.threadRoot (2 ^ 32)
    let m := store32 m (field t.addr Thread.prev) last
    let m := store32 m (field last Thread.next) t.addr
    -- stitch up the beginning node and the end node into a doubly linked ring list
    let m := store32 m (field t.addr Thread.next) k.threadRoot
    .ok { k with mem := store32 m (field k.threadRoot Thread.prev) t.addr }

/-- `init_kthreads`, for any number of threads: start them one after the other, then
let the first one be the running one. -/
def initKthreads (k : Kernel) (threads : ℕ → NewThread) (n : ℕ) : Except Fault Kernel := do
  let k ← forLoop (fun i k => startThread k (threads i)) 0 n k
  .ok { k with threadRunning := k.threadRoot }

end Kernel

end Muk
