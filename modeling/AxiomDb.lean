import AxiomDb.Index.StaleLink
import AxiomDb.Wal.Durability
import AxiomDb.Wal.LsnOrder
import AxiomDb.Txn.Isolation
import AxiomDb.Txn.Deferred
import AxiomDb.Txn.ClusteredRoots
import AxiomDb.Wal.Reopen
import AxiomDb.Wal.RollbackRecovery
import AxiomDb.Heap.Appenders
import AxiomDb.Heap.PageWrites
import AxiomDb.Storage.Allocator
import AxiomDb.Lock.CycleDetection
import AxiomDb.Sql.UniqueIndex
import AxiomDb.Storage.PageCache
import AxiomDb.Txn.Vacuum
import AxiomDb.Sql.JoinAgreement
import AxiomDb.Sql.StatementPlans
import AxiomDb.Sql.StrippedTexts
import AxiomDb.Storage.FreePages
import AxiomDb.Heap.PageRuns
import AxiomDb.Storage.OverflowRuns
import AxiomDb.Index.BatchDelete
import AxiomDb.Lock.Stranded
import AxiomDb.Sql.MinMax
import AxiomDb.Txn.FailedUpdate
import AxiomDb.Wal.FailedFlush
import AxiomDb.Sql.InSubquery
import AxiomDb.Sql.DecimalOrder
import AxiomDb.Sql.Calendar
import AxiomDb.Sql.IndexOnlyScan
import AxiomDb.Sql.PartialIndex
import AxiomDb.Index.ClusteredSplit
