import RedisServer.Lib.Buckets
import RedisServer.Lib.KeyedList
import RedisServer.Lib.Machine
import RedisServer.Lib.Monitor
import RedisServer.Lib.Sections
import RedisServer.Lib.MonitorSteps
import RedisServer.Lib.Decimal
import RedisServer.Lib.ExpiringMap
import RedisServer.Lib.Incremental
import RedisServer.Lib.LittleEndian
import RedisServer.Lib.PrefixCode
import RedisServer.Lib.FileSystem
import RedisServer.Lib.Ring
import RedisServer.Lib.BoundedScan
import RedisServer.Lib.Tokens
import RedisServer.Lib.Guarded
import RedisServer.Lib.Doubling
import RedisServer.Bytes
import RedisServer.Strtoll
import RedisServer.Store.Table
import RedisServer.Store.Ops
import RedisServer.Store.TableInvariant
import RedisServer.Store.Invariant
import RedisServer.Store.Abstract
import RedisServer.Store.Refinement
import RedisServer.Store.Runs
import RedisServer.Store.Rounds
import RedisServer.Store.Growth
import RedisServer.Store.Iterate
import RedisServer.Store.LiveView
import RedisServer.Store.Work
import RedisServer.Lib.Cells
import RedisServer.Linked.Store
import RedisServer.Linked.Chains
import RedisServer.Linked.Tables
import RedisServer.Linked.Layout
import RedisServer.Linked.Unlink
import RedisServer.Linked.Rehash
import RedisServer.Linked.Calls
import RedisServer.Linked.Bulk
import RedisServer.Linked.Runs
import RedisServer.Resp.Parse
import RedisServer.Resp.Stability
import RedisServer.Resp.Truncation
import RedisServer.Resp.Reply
import RedisServer.Resp.Value
import RedisServer.Resp.Grammar
import RedisServer.Resp.RoundTrip
import RedisServer.Resp.Inline
import RedisServer.Resp.Checked
import RedisServer.Persist.Snapshot
import RedisServer.Persist.RoundTrip
import RedisServer.Persist.Savers
import RedisServer.Persist.Durability
import RedisServer.Persist.Walk
import RedisServer.Persist.Fields
import RedisServer.Persist.Corruption
import RedisServer.Persist.Bounds
import RedisServer.Persist.Format
import RedisServer.Cmd.Handlers
import RedisServer.Cmd.ReplyFraming
import RedisServer.Cmd.LiveView
import RedisServer.Cmd.Rejections
import RedisServer.Cmd.StoreCalls
import RedisServer.Cmd.Readers
import RedisServer.Cmd.Counters
import RedisServer.Cmd.Expiry
import RedisServer.Cmd.KeySpace
import RedisServer.Cmd.Requests
import RedisServer.Cmd.MapMachine
import RedisServer.Server.Epoll
import RedisServer.Server.Chunking
import RedisServer.Server.EventLoop
import RedisServer.Server.Closing
import RedisServer.Server.ClientTurn
import RedisServer.Server.Threaded
import RedisServer.Server.Agreement
import RedisServer.Server.Serializable
import RedisServer.Server.WorkQueue
import RedisServer.Server.EpollServer
import RedisServer.Server.EpollRuns
import RedisServer.Server.QueueThreads
import RedisServer.Server.QueueSteps
import RedisServer.Server.ThreadPool
import RedisServer.Server.PoolRefinement
import RedisServer.Server.MapService
import RedisServer.Server.Lifecycle
import RedisServer.Server.DurableMap
import RedisServer.Server.Restart
import RedisServer.Server.PoolShutdown
import RedisServer.Server.PoolTermination
import RedisServer.Server.LockedPool
import RedisServer.Server.LockedRefinement
import RedisServer.Server.LockedService
import RedisServer.Server.Progress
