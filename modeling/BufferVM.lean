import BufferVM.Common.Vma
import BufferVM.Common.Word
import BufferVM.Kernel.Areas
import BufferVM.Kernel.Backing
import BufferVM.Kernel.BrkGaps
import BufferVM.Kernel.Calls
import BufferVM.Kernel.CheckEntry
import BufferVM.Kernel.ClearRange
import BufferVM.Kernel.Contents
import BufferVM.Kernel.DebugEntry
import BufferVM.Kernel.Descriptors
import BufferVM.Kernel.ElfFrame
import BufferVM.Kernel.ElfLoad
import BufferVM.Kernel.Entry
import BufferVM.Kernel.EntryRuns
import BufferVM.Kernel.FaultEntry
import BufferVM.Kernel.FilePages
import BufferVM.Kernel.GapSearch
import BufferVM.Kernel.GrowStack
import BufferVM.Kernel.HeapPages
import BufferVM.Kernel.HeapPlace
import BufferVM.Kernel.HeapVma
import BufferVM.Kernel.Hints
import BufferVM.Kernel.HostSteps
import BufferVM.Kernel.Interp
import BufferVM.Kernel.Joins
import BufferVM.Kernel.KernelFault
import BufferVM.Kernel.Lookup
import BufferVM.Kernel.MainImage
import BufferVM.Kernel.MainLoaded
import BufferVM.Kernel.MainPlace
import BufferVM.Kernel.Meaning
import BufferVM.Kernel.Memory
import BufferVM.Kernel.Mirrored
import BufferVM.Kernel.Mmap
import BufferVM.Kernel.MmapErrors
import BufferVM.Kernel.Offsets
import BufferVM.Kernel.OutOfNodes
import BufferVM.Kernel.Protection
import BufferVM.Kernel.RbColors
import BufferVM.Kernel.RbErase
import BufferVM.Kernel.RbGap
import BufferVM.Kernel.RbInsert
import BufferVM.Kernel.RbRotate
import BufferVM.Kernel.RbRuns
import BufferVM.Kernel.RbTree
import BufferVM.Kernel.SimCalls
import BufferVM.Kernel.SimMap
import BufferVM.Kernel.SimUnmap
import BufferVM.Kernel.Simulation
import BufferVM.Kernel.SpaceEdges
import BufferVM.Kernel.SpaceSorted
import BufferVM.Kernel.SpaceSound
import BufferVM.Kernel.SpaceView
import BufferVM.Kernel.StackInit
import BufferVM.Kernel.State
import BufferVM.Kernel.Store
import BufferVM.Kernel.StoreBytes
import BufferVM.Kernel.StoreLink
import BufferVM.Kernel.StoreUnlink
import BufferVM.Kernel.Syscall
import BufferVM.Kernel.SyscallEntry
import BufferVM.Kernel.UserArgs
import BufferVM.Kernel.UserLand
import BufferVM.Kernel.UserSpace
import BufferVM.Kernel.UserStrings
import BufferVM.Kernel.Version
import BufferVM.Kernel.VersionMap
import BufferVM.Kernel.VersionStore
import BufferVM.Kernel.Vma
import BufferVM.Kernel.VmaHeap
import BufferVM.Kernel.WellFormed
import BufferVM.Lib.BitFields
import BufferVM.Lib.ByteMem
import BufferVM.Lib.Chunks
import BufferVM.Lib.PtrList
import BufferVM.Lib.PtrRing
import BufferVM.Lib.PtrStack
import BufferVM.Lib.PtrTree
import BufferVM.Lib.Radix
import BufferVM.Lib.RedBlack
import BufferVM.Lib.Run
import BufferVM.Lib.X86
import BufferVM.Lib.X86Stack
import BufferVM.Program.Alloc
import BufferVM.Program.AllocRuns
import BufferVM.Program.Free
import BufferVM.Program.FreeList
import BufferVM.Program.HandOut
import BufferVM.Program.KernelBrk
import BufferVM.Program.Malloc
import BufferVM.Program.Realloc
import BufferVM.Vm.Backing
import BufferVM.Vm.CString
import BufferVM.Vm.Capacity
import BufferVM.Vm.Contents
import BufferVM.Vm.GuestBytes
import BufferVM.Vm.HostCall
import BufferVM.Vm.HostMap
import BufferVM.Vm.HostRead
import BufferVM.Vm.HostWritev
import BufferVM.Vm.LoadImage
import BufferVM.Vm.LoadSegment
import BufferVM.Vm.OwnCalls
import BufferVM.Vm.OwnPages
import BufferVM.Vm.PageCalls
import BufferVM.Vm.PageMap
import BufferVM.Vm.PageTables
import BufferVM.Vm.Paging
import BufferVM.Vm.Resize
import BufferVM.Vm.Segments
import BufferVM.Vm.Vma
