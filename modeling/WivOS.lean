import WivOS.Lib.BitStore
import WivOS.Lib.Radix
import WivOS.Lib.RadixAlike
import WivOS.Lib.LockProg
import WivOS.Lib.LockSafe
import WivOS.Lib.CallProg
import WivOS.Lib.Links
import WivOS.Lib.Trees
import WivOS.Lib.Runs
import WivOS.Lib.Digits
import WivOS.Lib.Scan
import WivOS.Lib.Swar
import WivOS.Mem.Pmm
import WivOS.Mem.Bitmap
import WivOS.Mem.PmmFit
import WivOS.Mem.PmmRuns
import WivOS.Mem.PmmInit
import WivOS.Mem.PmmBounds
import WivOS.Mem.PmmCount
import WivOS.Mem.Alloc
import WivOS.Mem.AllocNull
import WivOS.Mem.AllocRuns
import WivOS.Mem.Krealloc
import WivOS.Arch.Atomics
import WivOS.Arch.Spinlock
import WivOS.Arch.Ipi
import WivOS.Vmm.Space
import WivOS.Vmm.Unmap
import WivOS.Vmm.Calls
import WivOS.Vmm.Riscv64
import WivOS.Vmm.Riscv64Map
import WivOS.Vmm.X86
import WivOS.Vmm.Unmapping
import WivOS.Vmm.UnmapNull
import WivOS.Vmm.Equivalent
import WivOS.Vmm.Writes
import WivOS.Tasking.Kernel
import WivOS.Tasking.LockOrder
import WivOS.Tasking.Alone
import WivOS.Tasking.Tables
import WivOS.Tasking.NextTask
import WivOS.Tasking.Creation
import WivOS.Tasking.Failures
import WivOS.Tasking.Ownership
import WivOS.Tasking.Switching
import WivOS.Tasking.Schedule
import WivOS.Tasking.Preempt
import WivOS.Utils.Strings
import WivOS.Utils.Compare
import WivOS.Utils.Ram
import WivOS.Utils.Strchrnul
import WivOS.Utils.Strstr
import WivOS.Utils.Strsep
import WivOS.Utils.Strtok
import WivOS.Utils.Printf
import WivOS.Utils.PrintfFormat
import WivOS.Utils.PrintfDirective
import WivOS.Utils.PrintfNumber
import WivOS.Utils.PrintfFaithful
import WivOS.Utils.PrintfLayout
import WivOS.Utils.PrintfMemory
import WivOS.Utils.Lists
import WivOS.Utils.ListBefore
import WivOS.Utils.ListThreads
import WivOS.Utils.Hashmap
import WivOS.Utils.HashmapCalls
import WivOS.Utils.HashmapDelete
import WivOS.Utils.Gentree
import WivOS.Utils.GentreeLists
import WivOS.Utils.GentreeThreads
import WivOS.Utils.GentreeRuns
import WivOS.Utils.Dtb
import WivOS.Utils.DtbTree
import WivOS.Utils.DtbBlob
import WivOS.Utils.DtbProps
import WivOS.Utils.DtbSound
import WivOS.Utils.DtbStrings
import WivOS.Fs.Vfs
import WivOS.Fs.Trie
import WivOS.Fs.Paths
import WivOS.Fs.Mounts
import WivOS.Utils.DtbFind
import WivOS.Fs.MountThreads
import WivOS.Fs.Lookup
import WivOS.Fs.Open
import WivOS.Fs.Create
import WivOS.Tasking.TaskBounds
import WivOS.Tasking.FullTable
import WivOS.Tasking.Stacks
