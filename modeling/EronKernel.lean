import EronKernel.FuelLoop
import EronKernel.ByteMemory
import EronKernel.BlockList
import EronKernel.HeapModel
import EronKernel.HeapLayout
import EronKernel.HeapOps
import EronKernel.HeapRuns
import EronKernel.HeapIntegrity
import EronKernel.CString
import EronKernel.VfsModel
import EronKernel.SlotMap
import EronKernel.VfsTable
import EronKernel.VfsRefinement
import EronKernel.VfsUniqueness
import EronKernel.ProcModel
import EronKernel.ProcInvariant
import EronKernel.ElfModel
import EronKernel.ElfHeaders
import EronKernel.ElfContainment
import EronKernel.ElfLoading
import EronKernel.StringScan
import EronKernel.SyscallModel
import EronKernel.SyscallHeap
import EronKernel.SyscallConfinement
import EronKernel.VfsShape
import EronKernel.ProcFiles
import EronKernel.VfsCapacity
import EronKernel.VfsEffects
import EronKernel.ShellModel
import EronKernel.FileRoundTrip
import EronKernel.ShellFiles
import EronKernel.ShellCommands
import EronKernel.X86Machine
import EronKernel.ContextSwitch
import EronKernel.TtyModel
import EronKernel.TtyRefinement
import EronKernel.KeyboardFifo
import EronKernel.HeapFirstFit
import EronKernel.HeapRelease
import EronKernel.HeapWalks
import EronKernel.TaskModel
import EronKernel.VfsCreate
import EronKernel.TaskRegistry
import EronKernel.ShellExec
import EronKernel.VmmModel
import EronKernel.VmmTables
import EronKernel.EventTrace
import EronKernel.VmmSteps
import EronKernel.VmmRuns
import EronKernel.VmmRefinement
import EronKernel.VmmFrames
import EronKernel.VmmPlacement
import EronKernel.HeapReleaseAll
import EronKernel.HeapAccounting
import EronKernel.HeapAlignment
import EronKernel.ElfAtomicity
import EronKernel.SyscallWrite
import EronKernel.UserRanges
import EronKernel.BoundedCells
import EronKernel.BoundedText
import EronKernel.ShellAppend
import EronKernel.WordSplit
import EronKernel.ShellWrite
import EronKernel.VfsReadContract
import EronKernel.ProcFairness
import EronKernel.CellScan
import EronKernel.ShellParse
import EronKernel.ShellScript
import EronKernel.ShellListing
import EronKernel.VfsRename
import EronKernel.KeyboardShift
import EronKernel.LineEditing
import EronKernel.ShellInput
import EronKernel.KeyboardEcho
import EronKernel.BumpAllocation
import EronKernel.UserHeap
import EronKernel.VmmKernel
import EronKernel.UserHeapMapping
import EronKernel.VmmAtomicity
import EronKernel.DecimalPrinters
import EronKernel.TimerModel
import EronKernel.UptimeSnapshot
import EronKernel.SleepWake
import EronKernel.MouseModel
import EronKernel.MousePackets
import EronKernel.MouseQueue
import EronKernel.WordPainting
import EronKernel.FramebufferModel
import EronKernel.FramebufferStore
import EronKernel.FramebufferFill
import EronKernel.CircleOutline
import EronKernel.TrapMachine
import EronKernel.DescriptorFormat
import EronKernel.BootTables
import EronKernel.BootVectors
import EronKernel.TrapModel
import EronKernel.TrapReturn
import EronKernel.Preemption
import EronKernel.InterruptModel
import EronKernel.SystemModel
import EronKernel.SyscallEffects
import EronKernel.SystemSteps
import EronKernel.SystemInvariant
import EronKernel.SlotIsolation
import EronKernel.ProcessStart
import EronKernel.FaultContainment
import EronKernel.PageWalk
import EronKernel.MmuRefinement
import EronKernel.CanvasPainting
import EronKernel.FramebufferDrawing
import EronKernel.FramebufferCanvas
import EronKernel.FramebufferText
import EronKernel.FramebufferPictures
import EronKernel.TimeSharing
import EronKernel.ExecRefusal
import EronKernel.ShellEffects
import EronKernel.ShellReturns
import EronKernel.ShellSessions
import EronKernel.ShellReports
import EronKernel.ShellServices
import EronKernel.ShellMachine
import EronKernel.BlockLayout
import EronKernel.HeapForgets
import EronKernel.HeapBorrowing
import EronKernel.ShellMemtest
import EronKernel.ShellCat
