import CustomKernel.Library.Runs
import CustomKernel.Library.Loops
import CustomKernel.Library.LinkedSegment
import CustomKernel.Library.CyclicOrder
import CustomKernel.Library.Bits
import CustomKernel.Library.ByteMemory
import CustomKernel.Library.BlockList
import CustomKernel.Process.Process
import CustomKernel.Process.Scheduler
import CustomKernel.Memory.Pmm
import CustomKernel.Memory.Vmm
import CustomKernel.Memory.Heap
import CustomKernel.Syscall.HeapCalls
import CustomKernel.Filesystem.Elf
import CustomKernel.Proofs.Pmm
import CustomKernel.Proofs.SchedulerRing
import CustomKernel.Proofs.Scheduler
import CustomKernel.Proofs.RoundRobin
import CustomKernel.Proofs.PageEntry
import CustomKernel.Proofs.PageTables
import CustomKernel.Proofs.KernelBoot
import CustomKernel.Proofs.AddressSpaces
import CustomKernel.Proofs.UserPages
import CustomKernel.Proofs.HeapCalls
import CustomKernel.Proofs.PrivateWork
import CustomKernel.Proofs.UserConfinement
import CustomKernel.Proofs.KernelHeap
import CustomKernel.Process.Cpu
import CustomKernel.Process.Create
import CustomKernel.Drivers.Keyboard
import CustomKernel.Filesystem.Ramdisk
import CustomKernel.Filesystem.Loader
import CustomKernel.Syscall.Dispatch
import CustomKernel.User.Malloc
import CustomKernel.User.BlockHeap
import CustomKernel.User.UserLib
import CustomKernel.Library.RingBuffer
import CustomKernel.Proofs.UserMalloc
import CustomKernel.Proofs.MallocSimulation
import CustomKernel.Proofs.MallocCoexistence
import CustomKernel.Proofs.FreeOrder
import CustomKernel.Proofs.KernelHalf
import CustomKernel.Proofs.PrivilegeState
import CustomKernel.Proofs.ContextSwitch
import CustomKernel.Proofs.SyscallFrame
import CustomKernel.Proofs.SyscallAbis
import CustomKernel.Proofs.KeyWakeup
import CustomKernel.Proofs.KeyQueues
import CustomKernel.Proofs.FileDescriptors
import CustomKernel.Proofs.Archive
import CustomKernel.Proofs.BootHandoff
import CustomKernel.Proofs.Allocations
import CustomKernel.Proofs.PageTree
import CustomKernel.Proofs.ProgramLoad
import CustomKernel.Proofs.ElfFiles
import CustomKernel.Proofs.SystemRuns
import CustomKernel.Proofs.FrameOwnership
import CustomKernel.Proofs.SegmentContents
import CustomKernel.Proofs.VmmOperations
import CustomKernel.Proofs.HeapCanonical
import CustomKernel.Proofs.HeapFrames
import CustomKernel.Proofs.LoaderRuns
import CustomKernel.Proofs.ProcessLifecycle
import CustomKernel.Proofs.TwinRuns
import CustomKernel.Proofs.ResidualData
import CustomKernel.Proofs.HeapBreak
import CustomKernel.Proofs.FailedGrowth
import CustomKernel.Proofs.FirstFit
import CustomKernel.Proofs.BoundedReads
import CustomKernel.Proofs.FileAccess
import CustomKernel.Proofs.TruncatedFiles
import CustomKernel.Proofs.ScatterReads
import CustomKernel.Proofs.SleepDeadlines
import CustomKernel.Proofs.LineReads
import CustomKernel.Proofs.ScancodeBytes
import CustomKernel.Proofs.SyscallRegisters
import CustomKernel.Proofs.FirstDispatch
import CustomKernel.Drivers.Vga
import CustomKernel.Library.TextPage
import CustomKernel.Proofs.VgaLayout
import CustomKernel.Proofs.ReallocContents
import CustomKernel.Proofs.AllocationSizes
import CustomKernel.Proofs.LoadedPrograms
import CustomKernel.Proofs.LoaderMappings
import CustomKernel.Proofs.Rectangles
import CustomKernel.Proofs.RingIntegrity
import CustomKernel.Proofs.VgaColours
import CustomKernel.Proofs.NumberPrinting
import CustomKernel.Proofs.LoaderConfinement
import CustomKernel.Cpu.Gdt
import CustomKernel.Cpu.Idt
import CustomKernel.Cpu.Isr
import CustomKernel.Drivers.Pic
import CustomKernel.Drivers.SerialPort
import CustomKernel.Drivers.Timer
import CustomKernel.Drivers.VideoMode
import CustomKernel.Hardware.Platform
import CustomKernel.Proofs.DescriptorTables
import CustomKernel.Proofs.DeviceBoot
import CustomKernel.Proofs.InterruptFrame
import CustomKernel.Proofs.Preemption
import CustomKernel.Proofs.ProcessMemory
import CustomKernel.Proofs.TimerDelivery
