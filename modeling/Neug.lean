import Neug.Execution.AllShortestContract
import Neug.Execution.IntegerArith
import Neug.Execution.IntersectContract
import Neug.Execution.SinglePairContract
import Neug.Execution.ValueOrder
import Neug.Gds.KCore
import Neug.Gds.LabelPropagation
import Neug.Storage.CheckpointKeys
import Neug.Storage.CsvRowCount
import Neug.Storage.EdgeBatchContract
import Neug.Storage.EdgeChangeFailure
import Neug.Storage.GraphCompactionContract
import Neug.Storage.LabelIds
import Neug.Storage.StringColumnDump
import Neug.Storage.VertexPropertiesRequests
import Neug.Storage.VertexSet
import Neug.Transaction.CowGraphStorage
import Neug.Transaction.MvccInsertOutcome
import Neug.Transaction.OperationGateOverflow
import Neug.Transaction.ReadSnapshotLeaseGuarantees
import Neug.Transaction.SnapshotCowWrite
import Neug.Transaction.VersionManagerGuarantees
import Neug.Wal.Crash
import Neug.Wal.Recovery
