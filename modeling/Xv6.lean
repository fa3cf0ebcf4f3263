import Xv6.Lib.EventRuns
import Xv6.RuleFivePass
import Xv6.LevelBounds
import Xv6.Lib.Histories
import Xv6.TickAccounting
import Xv6.SuppliedRuns
import Xv6.QueueMembership
import Xv6.BottomAging
import Xv6.FreshSessions
import Xv6.PageAccounting
import Xv6.ProcMoves
import Xv6.OneCpuKernel
import Xv6.StartInterleaving
import Xv6.MultiCpuDispatch
import Xv6.TickReports
import Xv6.ProcessThreads
import Xv6.ThreadMoves
import Xv6.FamilyTree
import Xv6.TrapAccounting
import Xv6.SlotHygiene
import Xv6.StatusReports
import Xv6.SchedulerVersions
import Xv6.Lib.ByteMemory
import Xv6.PipeReceivers
import Xv6.ReceiverRuns
import Xv6.BroadcastProtocol
import Xv6.UnicastProtocol
import Xv6.Lib.LockLedger
import Xv6.SleepWakeup
import Xv6.LockDiscipline
import Xv6.LostWakeups
import Xv6.Lib.Tallies
import Xv6.Lib.Crashes
import Xv6.LogFormat
import Xv6.LogRecovery
import Xv6.LogOperations
import Xv6.LogCommits
import Xv6.LogCapacity
import Xv6.Lib.Bitmaps
import Xv6.Lib.Ownership
import Xv6.FileBlocks
import Xv6.BlockOwnership
import Xv6.BlockCalls
import Xv6.HoleFreeReads
import Xv6.Lib.Rings
import Xv6.BufferCache
import Xv6.CacheCoherence
import Xv6.LoggedBuffers
import Xv6.PinnedBuffers
import Xv6.Lib.SlotTables
import Xv6.DirectoryCalls
import Xv6.LinkCounts
import Xv6.InodeReferences
import Xv6.InodeCreation
import Xv6.FileReferences
import Xv6.NamingCalls
import Xv6.OrphanInodes
import Xv6.EntryCounts
import Xv6.UserCopies
import Xv6.PipeOrder
import Xv6.PipeWakeups
import Xv6.TypedText
import Xv6.FileLifetimes
import Xv6.DiskCompletions
import Xv6.CallLedgers
import Xv6.InodeSharing
import Xv6.ChildReaping
import Xv6.SelectionTurns
import Xv6.PassExaminations
import Xv6.QueueMoves
import Xv6.QueueRefinement
import Xv6.PsRecords
import Xv6.PartialWrites
import Xv6.TransactionBlocks
import Xv6.DirectoryMaps
import Xv6.PathWalks
import Xv6.MemoryAccounts
import Xv6.ByteCopies
import Xv6.PipeReads
import Xv6.NestingInvariants
import Xv6.SbrkCalls
import Xv6.PackedMaps
import Xv6.PackedTrees
import Xv6.ExecImages
import Xv6.ShellStrings
