import Redis.Dictionary.Scan
import Redis.Listpack.Refinement
import Redis.Networking.ReplyOrder
import Redis.Networking.InputParsing
import Redis.Aof.Recovery
import Redis.Strings.Bitop
import Redis.Strings.Increment
import Redis.Strings.Lcs
import Redis.Strings.SizeLimit
import Redis.HyperLogLog.Validation
import Redis.HyperLogLog.Refinement
import Redis.Replication.Backlog
import Redis.Cluster.ElectionSafety
import Redis.Keyspace.Refinement
import Redis.Hashes.Refinement
import Redis.KeyPositions.Agreement
import Redis.Cluster.Collision
import Redis.Cluster.SlotOwnership
import Redis.Sentinel.LeaderSafety
import Redis.Cluster.SlotIndex
import Redis.Tracking.Notification
import Redis.Sets.Pop
import Redis.Sets.Refinement
import Redis.Acl.Modules
import Redis.Sds.RoundTrip
import Redis.Sds.Splitting
import Redis.Blocking.Deadlines
import Redis.Cluster.SlotTable
import Redis.Aof.Feed
import Redis.Cluster.FailureReports
import Redis.Glob.Laws
import Redis.Decimal
import Redis.Localtime
import Redis.Cluster.SlotRefinement
