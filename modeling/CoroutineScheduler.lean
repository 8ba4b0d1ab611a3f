import CoroutineScheduler.Lib.Trans
import CoroutineScheduler.Lib.Count
import CoroutineScheduler.Lib.Tickets
import CoroutineScheduler.Lib.OrderedSet
import CoroutineScheduler.Scheduler.Queue
import CoroutineScheduler.Scheduler.Run
import CoroutineScheduler.Scheduler.Conserve
import CoroutineScheduler.Scheduler.Suspend
import CoroutineScheduler.Scheduler.Exclusive
import CoroutineScheduler.Scheduler.Drain
import CoroutineScheduler.Timer.Manager
import CoroutineScheduler.Timer.Ordered
import CoroutineScheduler.IOManager.FdContext
import CoroutineScheduler.IOManager.Events
import CoroutineScheduler.IOManager.Slots
import CoroutineScheduler.IOManager.Registered
import CoroutineScheduler.IOManager.Concurrent
import CoroutineScheduler.IOManager.Stale
import CoroutineScheduler.IOManager.Table
import CoroutineScheduler.IOManager.Waits
import CoroutineScheduler.Timer.Effects
import CoroutineScheduler.IOManager.Idle
import CoroutineScheduler.IOManager.Shutdown
import CoroutineScheduler.Hook.FdManager
import CoroutineScheduler.Hook.DoIo
import CoroutineScheduler.Hook.Steps
import CoroutineScheduler.Hook.Armed
import CoroutineScheduler.Hook.Timeout
import CoroutineScheduler.Hook.Rounds
import CoroutineScheduler.Hook.Reuse
import CoroutineScheduler.Lib.Splice
import CoroutineScheduler.Lib.Wire
import CoroutineScheduler.Sync.FiberSemaphore
import CoroutineScheduler.ByteArray.Basic
import CoroutineScheduler.ByteArray.Flat
import CoroutineScheduler.ByteArray.Serial
import CoroutineScheduler.ByteArray.Numbers
import CoroutineScheduler.ByteArray.Strings
import CoroutineScheduler.ByteArray.Buffers
import CoroutineScheduler.Lib.Scan
import CoroutineScheduler.Http.Stream
import CoroutineScheduler.Http.Head
import CoroutineScheduler.Http.Request
import CoroutineScheduler.Http.OriginForm
import CoroutineScheduler.Http.Session
import CoroutineScheduler.Http.Segments
import CoroutineScheduler.Http.Framing
import CoroutineScheduler.Http.Response
import CoroutineScheduler.Http.ChunkForm
import CoroutineScheduler.Http.Connection
import CoroutineScheduler.Http.ChunkSafety
import CoroutineScheduler.Http.ChunkDecode
import CoroutineScheduler.Http.WsSession
import CoroutineScheduler.Http.WsFrames
import CoroutineScheduler.Http.WsRoundTrip
import CoroutineScheduler.Http.WsControl
import CoroutineScheduler.Hook.Nonblock
import CoroutineScheduler.Hook.FdTable
import CoroutineScheduler.Http.Pool
import CoroutineScheduler.Http.PoolCount
import CoroutineScheduler.Http.PoolPolicy
import CoroutineScheduler.Http.PoolRequests
import CoroutineScheduler.Lib.Words
import CoroutineScheduler.Uri.Machine
import CoroutineScheduler.Uri.Runs
import CoroutineScheduler.Uri.Hosts
import CoroutineScheduler.Uri.Authority
import CoroutineScheduler.Uri.Compose
import CoroutineScheduler.Uri.Getters
import CoroutineScheduler.Uri.Accepted
import CoroutineScheduler.Uri.RoundTrip
import CoroutineScheduler.Uri.Literal
import CoroutineScheduler.Timer.Expired
import CoroutineScheduler.Timer.Results
import CoroutineScheduler.Lib.History
import CoroutineScheduler.Http.Servlet
import CoroutineScheduler.Hook.Sleep
import CoroutineScheduler.Scheduler.Pinned
import CoroutineScheduler.ByteArray.Positional
import CoroutineScheduler.ByteArray.File
import CoroutineScheduler.ByteArray.Atomic
import CoroutineScheduler.Lib.Lines
import CoroutineScheduler.Http.Dump
import CoroutineScheduler.Lib.OrderedMap
import CoroutineScheduler.Util.Url
import CoroutineScheduler.Http.Params
import CoroutineScheduler.Http.LazyParams
import CoroutineScheduler.Http.QueryRoundTrip
import CoroutineScheduler.Http.Methods
import CoroutineScheduler.Net.TcpServer
import CoroutineScheduler.Address.Mask
import CoroutineScheduler.Address.Text
import CoroutineScheduler.Address.Lookup
import CoroutineScheduler.Net.SslSocket
import CoroutineScheduler.Util.Base64
import CoroutineScheduler.Util.UrlCoding
import CoroutineScheduler.Http.WsBounds
import CoroutineScheduler.Http.WsResend
import CoroutineScheduler.Config.ConfigVar
import CoroutineScheduler.Config.Yaml
import CoroutineScheduler.Config.LoadYaml
import CoroutineScheduler.Log.Level
import CoroutineScheduler.Log.Pattern
import CoroutineScheduler.Log.FileAppender
import CoroutineScheduler.Log.Define
import CoroutineScheduler.Log.Loggers
import CoroutineScheduler.Lib.Turns
import CoroutineScheduler.Util.Hex
import CoroutineScheduler.Util.JsonUtil
import CoroutineScheduler.Util.Replace
import CoroutineScheduler.Util.Split
import CoroutineScheduler.Util.Trim
import CoroutineScheduler.Util.Hash
import CoroutineScheduler.Util.YamlJson
import CoroutineScheduler.Streams.StatsSet
import CoroutineScheduler.Streams.AsyncSocket
import CoroutineScheduler.Streams.CtxSteps
import CoroutineScheduler.Streams.ResumeOnce
import CoroutineScheduler.Streams.LoadBalance
import CoroutineScheduler.Streams.BalancerFollows
import CoroutineScheduler.Lib.Shares
import CoroutineScheduler.Util.BinarySearch
import CoroutineScheduler.Streams.Weights
import CoroutineScheduler.Streams.FixSize
import CoroutineScheduler.IOManager.EpollTimeout
import CoroutineScheduler.Log.Formatters
import CoroutineScheduler.Http.SessionData
import CoroutineScheduler.Scheduler.CbFiber
import CoroutineScheduler.Scheduler.FiberReuse
import CoroutineScheduler.Timer.Front
import CoroutineScheduler.IOManager.Wake
import CoroutineScheduler.IOManager.Noticed
import CoroutineScheduler.Scheduler.SwitchTo
import CoroutineScheduler.Lib.ScanTexts
import CoroutineScheduler.Http.RequestText
import CoroutineScheduler.Http.RequestDelivery
import CoroutineScheduler.Lib.Permits
import CoroutineScheduler.Streams.SendQueue
import CoroutineScheduler.Streams.SendOrder
import CoroutineScheduler.Http.ResponseForm
import CoroutineScheduler.Http.ResponseText
import CoroutineScheduler.Http.ResponseDelivery
import CoroutineScheduler.Http.Conversation
