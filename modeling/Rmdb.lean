import Rmdb.Common.Defs
import Rmdb.Common.Value
import Rmdb.Lib.Chain
import Rmdb.Lib.Frames
import Rmdb.Lib.SlotLog
import Rmdb.Lib.Prog
import Rmdb.Lib.Schedule
import Rmdb.System.Meta
import Rmdb.Transaction.Defs
import Rmdb.Transaction.LockManager
import Rmdb.Record.Bitmap
import Rmdb.Record.FileHandle
import Rmdb.Record.FreeList
import Rmdb.Recovery.LogManager
import Rmdb.Recovery.LogRecovery
import Rmdb.Recovery.Effects
import Rmdb.Recovery.Replay
import Rmdb.Recovery.Server
import Rmdb.Recovery.History
import Rmdb.Recovery.LogInvariant
import Rmdb.Recovery.HeapInvariant
import Rmdb.Recovery.Writes
import Rmdb.Recovery.DiskInvariant
import Rmdb.Recovery.Restart
import Rmdb.Recovery.Durability
import Rmdb.Recovery.CrashRecovery
import Rmdb.Recovery.RepeatHistory
import Rmdb.Execution.Calls
import Rmdb.Execution.Dml
import Rmdb.Execution.Scans
import Rmdb.Transaction.Sessions
import Rmdb.Transaction.LockDiscipline
import Rmdb.Transaction.Strictness
import Rmdb.Transaction.Serializable
import Rmdb.Transaction.LockTable
import Rmdb.Transaction.TwoPhase
import Rmdb.Transaction.ClientHandler
import Rmdb.Lib.UniqueIndex
import Rmdb.Record.HeapMap
import Rmdb.Execution.Store
import Rmdb.Execution.Keys
import Rmdb.Execution.Mirror
import Rmdb.Execution.Statements
import Rmdb.Transaction.Undo
import Rmdb.Transaction.Rollback
import Rmdb.Transaction.IndexMirror
import Rmdb.Recovery.LogFile
import Rmdb.Recovery.TornLog
import Rmdb.Recovery.LogCodec
import Rmdb.Recovery.LogStream
import Rmdb.Recovery.LogBounds
import Rmdb.System.Catalog
import Rmdb.System.Datetime
import Rmdb.Parser.Identifier
import Rmdb.Parser.IntLiteral
import Rmdb.Lib.StableSort
import Rmdb.Lib.BlockJoin
import Rmdb.Lib.JoinTree
import Rmdb.Execution.Executor
import Rmdb.Execution.NestedLoopJoin
import Rmdb.Execution.Operators
import Rmdb.Execution.Plans
import Rmdb.Execution.Aggregate
import Rmdb.Execution.RecordPrinter
import Rmdb.Optimizer.Analyze
import Rmdb.Optimizer.Planner
import Rmdb.Optimizer.Select
import Rmdb.Storage.FrameAccounting
import Rmdb.Record.RecordMap
import Rmdb.Record.SpaceReuse
import Rmdb.Lib.DoublyLinked
import Rmdb.Lib.Levels
import Rmdb.Index.InsertEntry
import Rmdb.System.DdlCrash
import Rmdb.Lib.Listing
import Rmdb.Lib.Cut
import Rmdb.Index.Delete
import Rmdb.Index.MaintainParent
import Rmdb.Index.DeleteEntry
import Rmdb.Index.KeyOrder
import Rmdb.Index.IndexMap
import Rmdb.Index.RangeScan
import Rmdb.Index.Pins
import Rmdb.Index.Touches
import Rmdb.Record.ScanOrder
import Rmdb.Execution.KeyInterval
import Rmdb.Execution.IndexScan
import Rmdb.Execution.ScanPins
import Rmdb.Lib.WriteBack
import Rmdb.Storage.PageContents
