import SystemsInC.Verified.CString
import SystemsInC.Ports.WaitForGraph
import SystemsInC.Ports.MvccInterleaving
import SystemsInC.Ports.MvccLocks
import SystemsInC.Ports.MvccChains
import SystemsInC.Ports.MvccHistory
import SystemsInC.Ports.MvccSnapshot
import SystemsInC.Ports.MvccStability
import SystemsInC.Ports.MvccLostUpdate
import SystemsInC.Ports.ArcCache
import SystemsInC.Ports.ArcCapacity
import SystemsInC.Ports.RedBlackHeap
import SystemsInC.Ports.RedBlackInsert
import SystemsInC.Ports.RedBlackColors
import SystemsInC.Ports.BlockCacheHeap
import SystemsInC.Ports.BlockCacheShape
import SystemsInC.Verified.RecencyList
import SystemsInC.Ports.BlockCacheRequest
import SystemsInC.Ports.BlockCachePool
import SystemsInC.Ports.BlockCacheLru
import SystemsInC.Ports.ArcRenaming
import SystemsInC.Ports.ArcDirectory
import SystemsInC.Ports.LruPaging
import SystemsInC.Verified.MaximalRuns
import SystemsInC.Ports.WordCount
import SystemsInC.Ports.MvccOutcome
import SystemsInC.Ports.MvccVictim
import SystemsInC.Ports.MvccDeadlock
import SystemsInC.Ports.FutexQueue
import SystemsInC.Ports.FutexWakeup
import SystemsInC.Ports.FifoTransfer
import SystemsInC.Ports.WalLog
import SystemsInC.Ports.FifoDelivery
import SystemsInC.Ports.RingQueue
import SystemsInC.Ports.KvStore
import SystemsInC.Ports.KvConcurrent
import SystemsInC.Ports.KvAnswers
import SystemsInC.Ports.HashMapOrder
import SystemsInC.Ports.ChatQueue
import SystemsInC.Ports.ChatDelivery
import SystemsInC.Ports.SqlLexer
import SystemsInC.Ports.SqlLayout
import SystemsInC.Ports.SqlParser
import SystemsInC.Ports.SqlStatements
import SystemsInC.Ports.MvccIncarnations
import SystemsInC.Ports.CondBuffer
import SystemsInC.Ports.FileCopy
import SystemsInC.Ports.SyscallCopy
import SystemsInC.Ports.UringMerge
import SystemsInC.Ports.ChatRoom
import SystemsInC.Ports.EchoServer
import SystemsInC.Ports.StudentMenu
import SystemsInC.Ports.MvccValues
import SystemsInC.Ports.RedBlackFixup
import SystemsInC.Ports.ArcLists
import SystemsInC.Ports.LruStack
import SystemsInC.Ports.ClockPaging
import SystemsInC.Ports.BlockCacheBuckets
import SystemsInC.Ports.BlockCacheRecency
import SystemsInC.Ports.BufferPool
import SystemsInC.Ports.KvRequests
import SystemsInC.Verified.BufferedInput
import SystemsInC.Verified.Words
import SystemsInC.Ports.KvLibrary
import SystemsInC.Ports.FileVerify
import SystemsInC.Ports.RecordSearch
import SystemsInC.Ports.QueryPipeline
import SystemsInC.Ports.MmapSearch
import SystemsInC.Ports.MemoryLog
import SystemsInC.Ports.MemoryMenu
import SystemsInC.Ports.MiniShell
import SystemsInC.Ports.ExpressionTree
import SystemsInC.Ports.SqlNumbers
import SystemsInC.Ports.StudentEntry
import SystemsInC.Ports.PagingRatio
import SystemsInC.Ports.MvccDrain
import SystemsInC.Ports.ExpressionText
import SystemsInC.Ports.RedBlackPrint
import SystemsInC.Ports.AtomicMutex
import SystemsInC.Ports.JobController
import SystemsInC.Ports.JobInterrupt
import SystemsInC.Ports.JobTurns
import SystemsInC.Ports.JobTermination
import SystemsInC.Ports.MemorySession
import SystemsInC.Ports.RedBlackHeight
import SystemsInC.Ports.ArcOvershoot
import SystemsInC.Ports.ShmCounter
import SystemsInC.Ports.StudentRoster
import SystemsInC.Ports.ForkServer
import SystemsInC.Ports.ThreadServer
import SystemsInC.Ports.HashMapWorkers
import SystemsInC.Ports.HashMapTurns
import SystemsInC.Ports.HashMapJoin
