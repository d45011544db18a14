import Mukern.Moves
import Mukern.Coherence
import Mukern.Lifetime
import Mukern.Authority
import Mukern.Confinement
import Mukern.RootTask
import Mukern.FaultIsolation
import Mukern.Library.Rendezvous
import Mukern.Transfer
import Mukern.UserPointers
import Mukern.Reuse
import Mukern.FaultReply
import Mukern.PagerVerdict
import Mukern.FrameAllocator
import Mukern.Library.RadixTree
import Mukern.PageTree
import Mukern.VmUpdates
import Mukern.DeadPeers
import Mukern.PagerAnswer
import Mukern.Library.Buffers
import Mukern.Library.Ring
import Mukern.Console
import Mukern.LineEditor
import Mukern.LineRefinement
import Mukern.ReadLines
import Mukern.LineDisplay
import Mukern.Library.Desk
import Mukern.VgaTerminal
import Mukern.ReadRequests
import Mukern.FileServer
import Mukern.FileReads
import Mukern.Archive
import Mukern.FileRequests
import Mukern.TableGrowth
import Mukern.FrameReferences
import Mukern.MemorySteps
import Mukern.Rootfs
import Mukern.RootfsLoad
import Mukern.Library.RoundRobin
import Mukern.SchedulingDelay
import Mukern.OpenCalls
import Mukern.ReplyOnce
import Mukern.Roles
import Mukern.IrqAccount
import Mukern.PortAccess
import Mukern.Library.Trace
import Mukern.RoleHolders
import Mukern.RoleGuards
import Mukern.FrameLeaks
import Mukern.ProgramImages
import Mukern.ThreadMemory
import Mukern.UserCode
import Mukern.UserRun
import Mukern.Protocol
import Mukern.Conformance
import Mukern.Agreement
import Mukern.Meetings
import Mukern.Upbringing
import Mukern.Faces
import Mukern.Soundness
import Mukern.SyscallFailure
import Mukern.UserMappings
import Mukern.FreshPages
import Mukern.DirectPointers
import Mukern.Library.TextScreen
import Mukern.VgaWindow
import Mukern.SendingOrder
import Mukern.Library.TypeAhead
import Mukern.SerialTiming
import Mukern.TerminalLines
import Mukern.Errands
import Mukern.Compliance
import Mukern.RefusedRequests
import Mukern.ManagerAnswers
import Mukern.CapabilityChecks
import Mukern.ArchiveWalks
import Mukern.Library.LittleEndian
import Mukern.MapBytes
import Mukern.ReservedMemory
import Mukern.ReceivedBytes
import Mukern.LoadBudget
import Mukern.Keyboard
import Mukern.BlockDriver
import Mukern.LineHistory
import Mukern.EscapeSequences
import Mukern.LineBrowsing
import Mukern.VgaLine
import Mukern.Library.Journal
import Mukern.LineBounds
import Mukern.ArchiveVisits
import Mukern.ArchiveListing
import Mukern.UstarNames
import Mukern.Library.Fifo
import Mukern.InputRings
import Mukern.Library.Coroutines
import Mukern.SwitchX86
import Mukern.SwitchRiscv
import Mukern.ThreadSwitching
import Mukern.HeapWindow
import Mukern.ThreadFrames
import Mukern.PagerRequests
import Mukern.RequestSteps
import Mukern.DemandPaging
import Mukern.Library.Traps
import Mukern.TrapX86
import Mukern.TrapRiscv
import Mukern.Preemption
import Mukern.UserConfinement
import Mukern.Library.Descriptors
import Mukern.DescriptorTables
import Mukern.Library.Blocks
import Mukern.LoaderX86
import Mukern.KernelEntry
import Mukern.Library.InterruptControllers
import Mukern.InterruptLines
import Mukern.QuietSystem
