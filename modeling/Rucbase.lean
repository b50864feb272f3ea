import Rucbase.Common
import Rucbase.Latch.ReaderWriterLatch
import Rucbase.Latch.Equiv.ReaderWriterLatch
import Rucbase.Latch.Sleepers
import Rucbase.Latch.Equiv.Sleepers
import Rucbase.Replacer.LruReplacer
import Rucbase.Replacer.Equiv.LruReplacer
import Rucbase.Lib.Bimap
import Rucbase.Lib.ByteFile
import Rucbase.Storage.DiskManager
import Rucbase.Storage.BufferPoolManager
import Rucbase.Lib.StateExcept
import Rucbase.Lib.Does
import Rucbase.Lib.LinkRing
import Rucbase.Lib.Promote
import Rucbase.Lib.Halving
import Rucbase.Lib.Intervals
import Rucbase.Lib.Chunks
import Rucbase.Lib.Run
import Rucbase.Lib.Separators
import Rucbase.Storage.Equiv.FrameInvariant
import Rucbase.Storage.Equiv.PoolRuns
import Rucbase.Storage.Equiv.FailedCalls
import Rucbase.Storage.Equiv.DiskManager
import Rucbase.Storage.Equiv.PageContents
import Rucbase.Storage.Equiv.Fetchable
import Rucbase.Storage.ManagerM
import Rucbase.Record.RmDefs
import Rucbase.Record.RmManager
import Rucbase.Index.IxDefs
import Rucbase.Index.IxManager
import Rucbase.Index.IxNodeHandle
import Rucbase.Index.IxIndexHandle
import Rucbase.Index.IxScan
import Rucbase.Index.Slots
import Rucbase.Index.Tree
import Rucbase.Index.Equiv.Slots
import Rucbase.Index.Equiv.Memory
import Rucbase.Index.Equiv.Holds
import Rucbase.Index.Equiv.Insert
import Rucbase.Index.Equiv.Descent
import Rucbase.Index.Equiv.Sorted
import Rucbase.Index.Equiv.NodeUpdates
import Rucbase.Index.Equiv.Shape
import Rucbase.Index.Equiv.Reach
import Rucbase.Index.IxRuns
import Rucbase.Index.Equiv.InsertRuns
import Rucbase.Index.Equiv.SearchOrder
import Rucbase.Index.Equiv.SearchRuns
import Rucbase.Index.Equiv.IxScan
import Rucbase.Index.Equiv.RangeScan
import Rucbase.Index.Equiv.PointSearch
import Rucbase.Index.Equiv.ScanRuns
import Rucbase.Index.Equiv.MaintainParent
import Rucbase.Index.Equiv.LeafStep
import Rucbase.Lib.Fuel
import Rucbase.Storage.Equiv.OpenFiles
import Rucbase.Storage.Equiv.FileTables
import Rucbase.Storage.Equiv.PageOffsets
import Rucbase.Storage.Equiv.FileSessions
import Rucbase.Storage.PageStore
import Rucbase.Record.Bitmap
import Rucbase.Record.RmFileHandle
import Rucbase.Record.RmPageHandle
import Rucbase.Record.RmScan
import Rucbase.Record.Equiv.Bitmap
import Rucbase.Storage.Equiv.PageStore
import Rucbase.Record.Equiv.RmFileHandle
import Rucbase.Record.Equiv.FreeChain
import Rucbase.Record.Equiv.RecordMap
import Rucbase.Record.Equiv.RmScan
import Rucbase.Record.Equiv.RecordRuns
import Rucbase.Record.Equiv.RidCalls
import Rucbase.Record.Equiv.RmPageHandle
import Rucbase.Storage.Equiv.PinnedFile
import Rucbase.Storage.Equiv.HandleView
import Rucbase.Record.Equiv.PooledRmFile
import Rucbase.Record.Equiv.Durability
import Rucbase.Lib.TextStream
import Rucbase.System.SmMeta
import Rucbase.System.Equiv.SmMeta
import Rucbase.Lib.ShiftReduce
import Rucbase.Parser.Ast
import Rucbase.Parser.Yacc
import Rucbase.Parser.Syntax
import Rucbase.Parser.Equiv.Yacc
import Rucbase.Parser.Lex
import Rucbase.Parser.Equiv.Lex
import Rucbase.Lib.ValidTable
import Rucbase.Parser.Equiv.States
import Rucbase.Parser.Equiv.Accepted
import Rucbase.Parser.Text
import Rucbase.Parser.Equiv.Text
import Rucbase.Parser.Equiv.Written
import Rucbase.System.SmManager
import Rucbase.System.Equiv.SmManager
import Rucbase.System.Equiv.Layout
import Rucbase.Lib.ByteString
import Rucbase.Execution.ExecutionManager
import Rucbase.Execution.SeqScanExecutor
import Rucbase.Execution.Equiv.PushDown
import Rucbase.Execution.Equiv.StringKeys
import Rucbase.Index.Equiv.NodeSearch
import Rucbase.Index.Equiv.Split
import Rucbase.Index.Equiv.FirstKeys
import Rucbase.Index.Equiv.KeyOrder
import Rucbase.Index.Equiv.DeleteEntry
import Rucbase.Index.Equiv.DeleteSteps
import Rucbase.Index.Equiv.WellFormed
import Rucbase.Execution.Equiv.WhereClause
import Rucbase.Lib.Memory
import Rucbase.Recovery.LogRecord
import Rucbase.Recovery.Equiv.LogRecord
import Rucbase.Execution.SelectFrom
import Rucbase.Lib.Output
import Rucbase.Execution.Equiv.Responses
import Rucbase.Lib.Ensures
import Rucbase.Index.Equiv.Links
import Rucbase.Index.Equiv.DeadPages
import Rucbase.Index.Equiv.Reinsert
import Rucbase.Index.IxMap
import Rucbase.Index.Equiv.IxMap
import Rucbase.Index.Equiv.MapScan
import Rucbase.Lib.LruCache
import Rucbase.Storage.Equiv.LruPool
import Rucbase.Index.Equiv.IxNodeBytes
import Rucbase.Index.Equiv.NodeCalls
