import Muk.Cxx.DynamicCast
import Muk.Cxx.Guard
import Muk.Drivers.Ata
import Muk.Drivers.Disk
import Muk.Drivers.Drain
import Muk.Drivers.KeyHistory
import Muk.Drivers.Keyboard
import Muk.Drivers.Print
import Muk.Drivers.Terminal
import Muk.Drivers.Tty
import Muk.Drivers.Typing
import Muk.Fs.Cat
import Muk.Fs.Directory
import Muk.Fs.DirectoryBytes
import Muk.Fs.Fat16
import Muk.Fs.FatChain
import Muk.Fs.FatWalk
import Muk.Fs.FilePath
import Muk.Fs.FileTree
import Muk.Fs.Folder
import Muk.Fs.Geometry
import Muk.Fs.Lookup
import Muk.Fs.Path
import Muk.Fs.ShortName
import Muk.Gfx.Buffer
import Muk.Gfx.Screen
import Muk.Gfx.Scroll
import Muk.Gfx.Setup
import Muk.Gfx.Surface
import Muk.Gfx.SurfacePixels
import Muk.Interrupt.Idt
import Muk.Interrupt.Pic
import Muk.Interrupt.Stubs
import Muk.Lib.Arrays
import Muk.Lib.AtaChannel
import Muk.Lib.Blocks
import Muk.Lib.ByteMemory
import Muk.Lib.Cells
import Muk.Lib.Chain
import Muk.Lib.Copies
import Muk.Lib.Entries
import Muk.Lib.Fifo
import Muk.Lib.LastWrite
import Muk.Lib.LeastFirst
import Muk.Lib.Lines
import Muk.Lib.Loop
import Muk.Lib.Numeral
import Muk.Lib.PagedMemory
import Muk.Lib.Paging
import Muk.Lib.Pic8259
import Muk.Lib.Pieces
import Muk.Lib.Record
import Muk.Lib.RoundRobin
import Muk.Lib.Rows
import Muk.Lib.Run
import Muk.Lib.Text
import Muk.Lib.WordBits
import Muk.Lib.Words
import Muk.Lib.X86
import Muk.Memory.Boot
import Muk.Memory.FrameLedger
import Muk.Memory.FrameSupply
import Muk.Memory.Heap
import Muk.Memory.HeapBlocks
import Muk.Memory.HeapFrames
import Muk.Memory.HeapInvariant
import Muk.Memory.HeapMachine
import Muk.Memory.HeapPrivate
import Muk.Memory.HeapRefusal
import Muk.Memory.HeapRuns
import Muk.Memory.MapPage
import Muk.Memory.MapPageNull
import Muk.Memory.Memmove
import Muk.Memory.PageTables
import Muk.Memory.PhysManager
import Muk.Memory.PhysManagerCount
import Muk.Memory.PhysManagerRuns
import Muk.Memory.PhysManagerSafety
import Muk.Memory.Setup
import Muk.Proc.Fairness
import Muk.Proc.Lock
import Muk.Proc.Message
import Muk.Proc.MessageRuns
import Muk.Proc.Mutex
import Muk.Proc.Postbox
import Muk.Proc.PostboxInvariant
import Muk.Proc.PostboxListen
import Muk.Proc.PostboxQueues
import Muk.Proc.PostboxRuns
import Muk.Proc.Ps
import Muk.Proc.RecursiveMutex
import Muk.Proc.Scheduler
import Muk.Proc.SchedulerRuns
import Muk.Proc.Thread
import Muk.Proc.ThreadRing
import Muk.Std.Atoi
import Muk.Std.Bitset
import Muk.Std.Digits
import Muk.Std.Format
import Muk.Std.FormatAgree
import Muk.Std.FormatBounds
import Muk.Std.FormatText
import Muk.Std.Itoa
import Muk.Std.Ltoa
import Muk.Std.RingBuffer
import Muk.Std.RingBufferRuns
import Muk.Std.Strcmp
import Muk.Std.String
import Muk.Std.StringBuffers
import Muk.Std.StringCopies
import Muk.Std.StringPlaces
import Muk.Std.StringRuns
import Muk.Std.StringScan
import Muk.Std.StringView
import Muk.Std.Strtok
import Muk.Std.Strtol
import Muk.Std.Vector
import Muk.Std.VectorRuns
import Muk.User.Command
import Muk.User.Env
import Muk.User.Line
import Muk.User.Ls
import Muk.User.Shell
