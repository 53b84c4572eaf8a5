import UntitledOs.Kernlib.Kernmem
import UntitledOs.Kernlib.Placement
import UntitledOs.Kernlib.HeapList
import UntitledOs.Kernlib.BootHeap
import UntitledOs.Kernlib.Reentrancy
import UntitledOs.Lib.BinaryTree
import UntitledOs.RbTree.Code
import UntitledOs.RbTree.Rotate
import UntitledOs.RbTree.Insert
import UntitledOs.RbTree.Fixbb
import UntitledOs.RbTree.Delete
import UntitledOs.RbTree.Stuck
import UntitledOs.Mtask.Scheduler
import UntitledOs.Mtask.RunQueue
import UntitledOs.Vmemory.Allocator
import UntitledOs.Vmemory.Partition
import UntitledOs.Vmemory.Operations
import UntitledOs.Vmemory.Runs
import UntitledOs.Lib.Bits
import UntitledOs.Lib.RadixTree
import UntitledOs.Vmemory.Paging
import UntitledOs.Vmemory.PageTables
import UntitledOs.Vmemory.MapPage
import UntitledOs.Vmemory.Mapping
import UntitledOs.Vmemory.Translation
import UntitledOs.Mtask.SleepQueue
import UntitledOs.Mtask.CpuList
import UntitledOs.Mtask.CpuLoad
import UntitledOs.Vmemory.Failure
import UntitledOs.Lib.Bytes
import UntitledOs.Fs.Ext2
import UntitledOs.Fs.BlockBitmap
import UntitledOs.Fs.Release
import UntitledOs.Fs.Directory
import UntitledOs.Fs.DiskFull
import UntitledOs.Fs.BlockMap
import UntitledOs.Bin.Addresses
import UntitledOs.Bin.Elf
import UntitledOs.Bin.Relocation
import UntitledOs.Bin.Resolution
import UntitledOs.Fs.Listing
import UntitledOs.Kernlib.LockDiscipline
import UntitledOs.Kernlib.MappedHeap
import UntitledOs.Lib.RedBlack
import UntitledOs.Mtask.SleepFrame
import UntitledOs.Mtask.Wakeup
import UntitledOs.RbTree.Balance
import UntitledOs.Vmemory.Ownership
import UntitledOs.Vmemory.TreeRuns
import UntitledOs.Mtask.LoadSteps
import UntitledOs.Mtask.Balancing
import UntitledOs.Mtask.Handles
import UntitledOs.Fs.BlockLookup
import UntitledOs.Fs.InodeTable
import UntitledOs.Vmemory.NodePool
import UntitledOs.Kernlib.FirstFit
import UntitledOs.Lib.NearRedBlack
import UntitledOs.Mtask.Insertions
import UntitledOs.RbTree.DeleteOrder
import UntitledOs.Vmemory.AlignedSearch
import UntitledOs.Mtask.ThreadRemoval
import UntitledOs.Kernlib.HeapBytes
import UntitledOs.Kernlib.Realloc
import UntitledOs.Kernlib.Histories
import UntitledOs.Vmemory.Coalescing
import UntitledOs.Bin.Nobits
import UntitledOs.Fs.BitOrder
import UntitledOs.Fs.BlockMarks
import UntitledOs.Fs.FileRead
import UntitledOs.Fs.GroupTable
import UntitledOs.Fs.Path
import UntitledOs.Fs.PathLookup
import UntitledOs.Fs.Seek
import UntitledOs.Vmemory.Teardown
import UntitledOs.Cpu.Gdt
import UntitledOs.Dev.Pio
import UntitledOs.Log.PutNum
import UntitledOs.Mtask.Acpi
import UntitledOs.Vmemory.Containing
import UntitledOs.Bin.Description
import UntitledOs.Bin.Symbols
import UntitledOs.Fs.Iteration
import UntitledOs.Vmemory.Slots
import UntitledOs.Lib.Memory
import UntitledOs.Cstdlib.String
import UntitledOs.Lib.Lock
import UntitledOs.Kernlib.Concurrent
import UntitledOs.Mtask.ApStartup
import UntitledOs.Cpu.Machine
import UntitledOs.Mtask.ContextSwitch
import UntitledOs.Fs.Resolve
import UntitledOs.Log.Printf
import UntitledOs.Fs.Insertion
import UntitledOs.Fs.Removal
import UntitledOs.Fs.Volume
import UntitledOs.Fs.Create
import UntitledOs.Fs.Unlink
import UntitledOs.Fs.Rename
import UntitledOs.Fs.Calls
import UntitledOs.Cstdlib.Memmove
import UntitledOs.Bin.Linking
import UntitledOs.Fs.NewBlocks
import UntitledOs.Fs.FileWrite
