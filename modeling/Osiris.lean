import Osiris.Library.ByteMemory
import Osiris.Library.Bitmap
import Osiris.Library.Radix
import Osiris.Model.Page
import Osiris.Verification.Page.Allocator
import Osiris.Verification.Page.Init
import Osiris.Verification.Page.Ownership
import Osiris.Model.VmmMap
import Osiris.Verification.Vmm.Tables
import Osiris.Verification.Vmm.Map
import Osiris.Library.Transition
import Osiris.Verification.Vmm.History
import Osiris.Verification.Vmm.Refinement
import Osiris.Verification.Vmm.Frames
import Osiris.Verification.Vmm.UserAccess
import Osiris.Library.Loop
import Osiris.Model.VmmClone
import Osiris.Verification.Clone.Copy
import Osiris.Verification.Clone.Release
import Osiris.Verification.Clone.Pagemap
import Osiris.Verification.Clone.OnePage
import Osiris.Verification.Clone.UserMemory
import Osiris.Verification.Clone.Failure
import Osiris.Verification.Clone.KernelHalf
import Osiris.Verification.Clone.Permissions
import Osiris.Library.Blocks
import Osiris.Library.Gaps
import Osiris.Library.LinkedList
import Osiris.Model.Heap
import Osiris.Verification.Heap.FreeList
import Osiris.Verification.Heap.Alloc
import Osiris.Verification.Heap.Free
import Osiris.Verification.Heap.Invariant
import Osiris.Verification.Heap.History
import Osiris.Verification.Heap.Canonical
import Osiris.Verification.Heap.Sizes
import Osiris.Verification.Heap.Exhaustion
import Osiris.Verification.Heap.Realloc
import Osiris.Verification.Heap.Reject
import Osiris.Verification.Page.Bounds
import Osiris.Verification.Page.Accounting
import Osiris.Verification.Page.BootData
import Osiris.Verification.Page.Reserved
import Osiris.Model.Proc
import Osiris.Verification.Sched.Table
import Osiris.Verification.Sched.Destroy
import Osiris.Verification.Sched.Pids
import Osiris.Library.Words
import Osiris.Model.Swtch
import Osiris.Verification.Sched.Switch
import Osiris.Model.Atkbd
import Osiris.Verification.Atkbd.Fifo
import Osiris.Verification.Atkbd.Bounds
import Osiris.Model.Liminefb
import Osiris.Verification.Liminefb.Putchar
import Osiris.Verification.Liminefb.Cursor
import Osiris.Model.Tar
import Osiris.Verification.Tar.Decode
import Osiris.Verification.Tar.Bounds
import Osiris.Model.Mount
import Osiris.Verification.Vfs.Handles
import Osiris.Verification.Tar.Read
import Osiris.Verification.Vfs.ReadFile
import Osiris.Verification.Vfs.Dispatch
import Osiris.Verification.Vmm.Init
import Osiris.Verification.Vmm.BootSpace
import Osiris.Verification.Vmm.Recorded
import Osiris.Verification.Vmm.DirectMap
import Osiris.Verification.Heap.Window
import Osiris.Verification.Vmm.Undo
import Osiris.Verification.Sched.Idle
import Osiris.Verification.Sched.Create
import Osiris.Verification.Page.Image
import Osiris.Library.Chain
import Osiris.Model.MountList
import Osiris.Verification.Vfs.MountList
import Osiris.Verification.Vfs.Mount
import Osiris.Verification.Vfs.Search
import Osiris.Model.Devfs
import Osiris.Verification.Vfs.Devices
import Osiris.Verification.Vfs.Names
import Osiris.Verification.Tar.Advance
import Osiris.Verification.Tar.Chunks
import Osiris.Verification.Vfs.Overread
import Osiris.Library.Numerals
import Osiris.Model.Printk
import Osiris.Verification.Printk.Format
import Osiris.Verification.Printk.Bounds
import Osiris.Verification.Printk.Reads
import Osiris.Verification.Printk.Numbers
import Osiris.Model.AtkbdIrq
import Osiris.Verification.Atkbd.Modifiers
import Osiris.Verification.Strings.Memmove
import Osiris.Model.Panic
import Osiris.Verification.Panic.Symbols
import Osiris.Library.Xorshift
import Osiris.Model.Random
import Osiris.Verification.Random.Stream
import Osiris.Verification.Tar.Octal
import Osiris.Verification.Liminefb.Pixels
import Osiris.Verification.Liminefb.Trace
import Osiris.Verification.Liminefb.Scroll
import Osiris.Verification.Liminefb.Written
import Osiris.Verification.Liminefb.Runs
import Osiris.Verification.Vmm.DirectMap
import Osiris.Verification.Heap.DirectMap
import Osiris.Library.Store
import Osiris.Verification.Heap.Contents
import Osiris.Model.Isr
import Osiris.Model.Trap
import Osiris.Verification.Trap.Stubs
import Osiris.Verification.Preempt.Stacks
import Osiris.Verification.Preempt.System
import Osiris.Verification.Preempt.Transparent
import Osiris.Library.Ownership
import Osiris.Model.Kernel
import Osiris.Verification.Vmm.Spared
import Osiris.Verification.Heap.Spared
import Osiris.Verification.Kernel.System
import Osiris.Verification.Kernel.Users
import Osiris.Verification.Kernel.Boot
import Osiris.Verification.Kernel.Runs
import Osiris.Library.Ledger
import Osiris.Verification.Clone.Forks
import Osiris.Verification.Spaces.Copies
import Osiris.Verification.Spaces.Runs
