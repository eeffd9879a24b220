import Aworker.Lib.Run
import Aworker.Lib.Effects
import Aworker.Lib.Framing
import Aworker.Ipc.Message
import Aworker.Ipc.Socket
import Aworker.Ipc.SocketServer
import Aworker.Ipc.Delegate
import Aworker.Ipc.Link
import Aworker.Ipc.Rpc
import Aworker.AgentChannel.DataChannel
import Aworker.AgentChannel.ChannelRefs
import Aworker.AgentChannel.StreamTable
import Aworker.AgentChannel.Resources
import Aworker.AgentChannel.LockWakeups
import Aworker.AgentChannel.Streaming
import Aworker.AgentChannel.Trigger
import Aworker.AgentChannel.Answers
import Aworker.Inspector.MainThread
import Aworker.Inspector.Sessions
import Aworker.Cache.FileStream
import Aworker.Cache.Match
import Aworker.Cache.Page
import Aworker.Cache.Poison
import Aworker.Cache.Storages
import Aworker.Cache.Transaction
import Aworker.Cache.SharedFetch
import Aworker.Cache.PutMatch
import Aworker.Cache.Concurrent
import Aworker.Cache.Batches
import Aworker.Cache.Atomic
import Aworker.Cache.Names
import Aworker.Cache.PageWriter
import Aworker.Cache.PageReader
import Aworker.Loader.Imports
import Aworker.Loader.ModuleWrap
import Aworker.Lib.PriorityQueue
import Aworker.Lib.RoundRobin
import Aworker.Lib.SearchTree
import Aworker.Loop.TaskRunner
import Aworker.Loop.MacroTasks
import Aworker.Loop.AlarmTimer
import Aworker.Loop.Timers
import Aworker.Zlib.Pushes
import Aworker.Ipc.Dispose
import Aworker.Dom.EventTarget
import Aworker.ServiceWorker.Lifetime
import Aworker.Async.ExecutionStack
import Aworker.Async.LocalStorage
import Aworker.Process.Rejections
import Aworker.Lib.Utf8
import Aworker.Encoding.TextDecoder
import Aworker.Loop.LatencyWatchdog
import Aworker.Loop.NestedCallbacks
import Aworker.Url.SearchParams
import Aworker.Url.Url
import Aworker.Lib.CopyOnWrite
import Aworker.Fetch.SharedHeaders
import Aworker.Fetch.GrowableBuffer
import Aworker.Fetch.Multipart
import Aworker.Fetch.Upload
import Aworker.Contextify.Execute
import Aworker.Zlib.Inflate
import Aworker.Zlib.Detect
import Aworker.Lib.LastWins
import Aworker.Url.Query
import Aworker.Url.Record
import Aworker.Fetch.GuardedHeaders
import Aworker.Fetch.HeaderModel
import Aworker.Fetch.Filter
import Aworker.Dom.AbortSignal
import Aworker.Fetch.World
import Aworker.Fetch.WorldOk
import Aworker.Fetch.Response
import Aworker.Fetch.Clone
import Aworker.Fetch.Request
import Aworker.Fetch.ArrayBuffer
import Aworker.Fetch.MultipartParts
import Aworker.Fetch.MultipartEntries
import Aworker.Fetch.MultipartNames
