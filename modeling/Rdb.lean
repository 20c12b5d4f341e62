import Rdb.Tx.Restart
import Rdb.Dist.Answers
import Rdb.Ds.Planes
import Rdb.Ds.Wipe
import Rdb.Tx.Flush
import Rdb.Ddl.Identity
import Rdb.Dist.Exclusion
import Rdb.Sql.Reads
import Rdb.Lite.Reap
import Rdb.Kafka.Produce
import Rdb.Kafka.OffsetCommit
import Rdb.Lite.Counts
import Rdb.Lite.DeadLetters
import Rdb.Lite.AtLeastOnce
import Rdb.Lite.Delay
import Rdb.Lite.Fencing
import Rdb.Lite.Trim
import Rdb.Command.ListRun
import Rdb.Command.ZsetRun
import Rdb.Multi.Exec
import Rdb.Multi.Redirect
import Rdb.Command.Delete
import Rdb.Command.Restore
import Rdb.Command.Scan
import Rdb.Sql.RowTrip
import Rdb.Index.Lookup
import Rdb.Tx.Frontier
import Rdb.Raft.LogStore
import Rdb.Raft.SnapshotStore
import Rdb.Search.Query
import Rdb.Command.Migrate
import Rdb.S3.Object
import Rdb.Sql.Like
import Rdb.Tx.Latch
import Rdb.Kafka.Ledger
import Rdb.Kafka.Rebalance
import Rdb.Resp.Conn
