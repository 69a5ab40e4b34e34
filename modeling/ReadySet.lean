import ReadySet.DataflowExpression.ThreeValued
import ReadySet.DataflowState.Persistent.Comparator
import ReadySet.DataflowState.RowCounts
import ReadySet.DataflowState.TaggedBatches
import ReadySet.DataflowState.Weak
import ReadySet.MergingIntervalTree.PartialMap
import ReadySet.Ops.Grouped.Aggregate
import ReadySet.Ops.Grouped.Extremum
import ReadySet.Ops.Join.WeakUpdates
import ReadySet.Ops.TopK.Misses
import ReadySet.Ops.Union.BagUnion
import ReadySet.Ops.Union.Replays
import ReadySet.Node.Special.PacketFilter
import ReadySet.Node.Special.Routing
import ReadySet.Node.Special.ShardedValues
import ReadySet.Node.Timestamps
import ReadySet.Domain.EvictionPackets
import ReadySet.Domain.RequestedKeys
import ReadySet.Domain.WaitingRuns
import ReadySet.Controller.RegistryRuns
import ReadySet.Replicators.Mysql.Binlog
import ReadySet.Replicators.Postgres.Replication
import ReadySet.MysqlSrv.PacketDelivery
import ReadySet.PsqlSrv.Authorized
import ReadySet.NomSql.Literal
import ReadySet.Ops.Join.Replayed
import ReadySet.Data.Stored
import ReadySet.Data.TextCoerce
import ReadySet.Data.TimestampText
