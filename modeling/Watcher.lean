import Watcher.ForStd.BigEndian
import Watcher.ForStd.Digits
import Watcher.ForStd.UInt64
import Watcher.ForStd.List
import Watcher.Lib.Run
import Watcher.Lib.Utf8
import Watcher.Lib.Pending
import Watcher.Lib.Keyset
import Watcher.Lib.OffsetPages
import Watcher.Lib.Simulation
import Watcher.Lib.Replay
import Watcher.Lib.Replica
import Watcher.Lib.KeysetScan
import Watcher.Lib.Reads
import Watcher.Json.Scanner
import Watcher.Json.Embed
import Watcher.Json.Read
import Watcher.Json.Write
import Watcher.Json.Names
import Watcher.Json.Text
import Watcher.Json.Grammar
import Watcher.Json.Parse
import Watcher.Json.Compact
import Watcher.Json.RawMap
import Watcher.Json.Render
import Watcher.Model.GoString
import Watcher.Model.Escape
import Watcher.Model.Cdc
import Watcher.Model.Pgoutput
import Watcher.Model.AckGate
import Watcher.Model.PostgresListener
import Watcher.Model.CommitGate
import Watcher.Model.MysqlListener
import Watcher.Model.Publisher
import Watcher.Model.SchemaHistory
import Watcher.Model.SlotCleanup
import Watcher.Model.Bus
import Watcher.Model.LineScanner
import Watcher.Model.MysqlDump
import Watcher.Model.OffsetFile
import Watcher.Model.CopyDump
import Watcher.Model.SnapshotChunked
import Watcher.Model.Truncate
import Watcher.Model.ParserChecked
import Watcher.Model.ListenLoop
import Watcher.Spec.Pgoutput
import Watcher.Spec.PgoutputCorrect
import Watcher.Spec.PgDelivery
import Watcher.Spec.RowData
import Watcher.Spec.MessageId
import Watcher.Spec.PgSourceId
import Watcher.Spec.PgReconfigure
import Watcher.Spec.Binlog
import Watcher.Spec.MysqlDelivery
import Watcher.Spec.MysqlSourceId
import Watcher.Spec.PublisherOrder
import Watcher.Spec.GateIsolation
import Watcher.Spec.SchemaHistory
import Watcher.Spec.SlotCleanup
import Watcher.Spec.SlotOwnership
import Watcher.Spec.BusInvariant
import Watcher.Spec.BusRegistry
import Watcher.Spec.BusDelivery
import Watcher.Spec.BusProgress
import Watcher.Spec.MysqlDump
import Watcher.Spec.OffsetFile
import Watcher.Spec.CopyDump
import Watcher.Spec.CopyColumns
import Watcher.Spec.SnapshotKeyset
import Watcher.Spec.BinaryValue
import Watcher.Spec.Subject
import Watcher.Spec.AckGateLog
import Watcher.Spec.CommitGateLog
import Watcher.Spec.PublisherForms
import Watcher.Spec.SnapshotOffset
import Watcher.Spec.Truncate
import Watcher.Spec.KeyImage
import Watcher.Spec.MysqlRow
import Watcher.Spec.CutImage
import Watcher.Spec.CutMessage
import Watcher.Spec.Escape
import Watcher.Spec.ParserSafety
import Watcher.Spec.ListenLoop
import Watcher.Spec.SnapshotEnds
import Watcher.Spec.DumpBoundaries
import Watcher.Spec.DumpFile
import Watcher.Model.HistoryFiles
import Watcher.Model.PublisherLife
import Watcher.Model.Process
import Watcher.Model.Health
import Watcher.Spec.HistoryFrame
import Watcher.Spec.Outbox
import Watcher.Spec.PgOrder
import Watcher.Spec.PgPipeline
import Watcher.Spec.MysqlOrder
import Watcher.Spec.MysqlPipeline
import Watcher.Spec.BusFrame
import Watcher.Spec.ProcessMoves
import Watcher.Spec.ProcessInvariant
import Watcher.Spec.ProcessFailures
import Watcher.Spec.Shutdown
import Watcher.Spec.RowTexts
import Watcher.Spec.TableChanges
import Watcher.Spec.SnapshotStream
import Watcher.Spec.Probes
