import Pintos.Filesys.Changes
import Pintos.Lib.Machine
import Pintos.Lib.Permit
import Pintos.Lib.WaitsFor
import Pintos.Kernel.List
import Pintos.Threads.Types
import Pintos.Threads.Interleave
import Pintos.Threads.Synch
import Pintos.Threads.Thread
import Pintos.Properties.Semaphore
import Pintos.Properties.LockExclusion
import Pintos.Properties.NullHolder
import Pintos.Properties.Donation
import Pintos.Properties.Scheduler
import Pintos.Properties.ReadyList
import Pintos.Lib.Prog
import Pintos.Lib.LittleEndian
import Pintos.Kernel.WordBitmap
import Pintos.Lib.RadixTree
import Pintos.Kernel.Bitmap
import Pintos.Threads.Vaddr
import Pintos.Threads.Palloc
import Pintos.Threads.Mmu
import Pintos.Properties.PageTable
import Pintos.Properties.AddressSpace
import Pintos.Properties.Isolation
import Pintos.Filesys.Types
import Pintos.Filesys.InodeData
import Pintos.Filesys.Inode
import Pintos.Filesys.Directory
import Pintos.Properties.OpenFiles
import Pintos.Userprog.Process
import Pintos.Properties.ProcessWait
import Pintos.Properties.ProcessExit
import Pintos.Lib.SlotMap
import Pintos.Properties.FreeMap
import Pintos.Properties.Inode
import Pintos.Properties.Directory
import Pintos.Properties.FailedCreate
import Pintos.Properties.Format
import Pintos.Properties.FreeMapRestart
import Pintos.Properties.DirectoryMap
import Pintos.Properties.Ownership
import Pintos.Vm.Types
import Pintos.Vm.Page
import Pintos.Vm.Vm
import Pintos.Vm.Changes
import Pintos.Userprog.Memory
import Pintos.Userprog.Access
import Pintos.Userprog.Syscall
import Pintos.Properties.Swap
import Pintos.Properties.Eviction
import Pintos.Userprog.Buffer
import Pintos.Userprog.Resident
import Pintos.Properties.UserMemory
import Pintos.Properties.UserArguments
import Pintos.Userprog.Image
import Pintos.Userprog.Remaps
import Pintos.Properties.Handles
import Pintos.Properties.ProcessFiles
import Pintos.Properties.Executables
import Pintos.Properties.References
import Pintos.Properties.BackingFiles
import Pintos.Properties.PageMap
import Pintos.Properties.PageGroups
import Pintos.Properties.AlarmClock
import Pintos.Properties.Intq
import Pintos.Properties.MlfqsRange
import Pintos.Properties.MlfqsOrder
import Pintos.Properties.HashMap
import Pintos.Properties.MemoryDiscovery
import Pintos.Kernel.LinkedList
import Pintos.Properties.StackGrowth
import Pintos.Threads.Malloc
import Pintos.Properties.Mmap
import Pintos.Properties.Munmap
import Pintos.Properties.MmapRange
import Pintos.Userprog.Project2
import Pintos.Userprog.Segments
import Pintos.Properties.LazyLoading
import Pintos.Properties.ElfImage
import Pintos.Properties.ArgumentPassing
import Pintos.Vm.Frames
import Pintos.Userprog.PageFaults
import Pintos.Properties.SharedFile
import Pintos.Threads.Condition
import Pintos.Properties.CondWaiters
import Pintos.Properties.Conditions
import Pintos.Kernel.ListSort
import Pintos.Threads.Donations
import Pintos.Threads.ThreadCreate
import Pintos.Properties.DonationWalk
import Pintos.Properties.DonationReturn
import Pintos.Properties.ThreadCreate
import Pintos.Lib.Independence
import Pintos.Userprog.Descriptors
import Pintos.Properties.Descriptors
import Pintos.Properties.OpenByName
import Pintos.Properties.DescriptorReuse
import Pintos.Properties.DescriptorFork
import Pintos.Filesys.Buffers
import Pintos.Properties.FlatFile
import Pintos.Userprog.Exec
import Pintos.Properties.ExecBounds
import Pintos.Userprog.Fork
import Pintos.Properties.ForkPages
import Pintos.Properties.ForkResult
import Pintos.Filesys.Fsutil
import Pintos.Properties.Volume
import Pintos.Properties.PutGet
import Pintos.Lib.StrictWeak
import Pintos.Lib.Runs
import Pintos.Lib.RoundRobin
import Pintos.Kernel.Sorting
import Pintos.Properties.CondOrder
import Pintos.Threads.Dispatch
import Pintos.Properties.RoundRobin
import Pintos.Properties.Preemption
import Pintos.Properties.MlfqsPriority
import Pintos.Kernel.ListOrdered
import Pintos.Properties.SortedLists
import Pintos.Kernel.ListSurgery
import Pintos.Properties.ListSurgery
import Pintos.Kernel.HashTable
import Pintos.Properties.HashTraversal
import Pintos.Kernel.BitmapCalls
import Pintos.Properties.BitmapArray
import Pintos.Properties.FrameExclusion
import Pintos.Libc.Arithmetic
import Pintos.Properties.Division
import Pintos.Lib.BinaryHeap
import Pintos.Libc.Stdlib
import Pintos.Properties.HeapSort
import Pintos.Properties.BinarySearch
import Pintos.Libc.Ctype
import Pintos.Libc.Stdio
import Pintos.Properties.FormatInteger
import Pintos.Properties.Printf
import Pintos.Properties.PrintfBounds
import Pintos.Properties.Atoi
import Pintos.Properties.EntryBits
import Pintos.Properties.HeapLayout
import Pintos.Properties.HeapShape
import Pintos.Properties.HeapMalloc
import Pintos.Properties.HeapFree
import Pintos.Properties.HeapInit
import Pintos.Properties.HeapRuns
import Pintos.Properties.HeapSound
import Pintos.Properties.HeapRequests
import Pintos.Lib.Traversal
import Pintos.Properties.ForEach
import Pintos.Properties.FreshStack
import Pintos.Lib.FileStore
import Pintos.Properties.VolumeCalls
import Pintos.Properties.HandleCalls
import Pintos.Properties.FileSessions
import Pintos.Lib.CellHistory
import Pintos.Devices.Disk
import Pintos.Properties.DiskDriver
import Pintos.Devices.Kbd
import Pintos.Properties.Keyboard
import Pintos.Lib.X86
import Pintos.Threads.Switch
import Pintos.Properties.ContextSwitch
import Pintos.Threads.InterruptEntry
import Pintos.Properties.InterruptFrames
import Pintos.Userprog.SyscallEntry
import Pintos.Properties.SyscallFrames
