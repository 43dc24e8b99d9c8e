import CoServer.Scheduler.Stopping
import CoServer.Scheduler.Wakeup
import CoServer.Worker.Tokens
import CoServer.IOManager.Delivery
import CoServer.TimerManager.InTime
import CoServer.IOManager.IdleTimeout
import CoServer.Hook.Timeout
import CoServer.Hook.Sleep
import CoServer.Hook.FdFlags
import CoServer.ByteArray.File
import CoServer.DataStruct.LruCache
import CoServer.DataStruct.TimedLruCache
import CoServer.DataStruct.Expiry
import CoServer.DataStruct.Array
import CoServer.DataStruct.HashMap
import CoServer.DataStruct.HashMultimap
import CoServer.DataStruct.BitmapRoundTrip
import CoServer.Stream.Scatter
import CoServer.Stream.ZlibCalls
import CoServer.Rock.Gzip
import CoServer.Rock.Allocation
import CoServer.AsyncStream.Pairing
import CoServer.AsyncStream.WriteQueue
import CoServer.AsyncStream.Lifecycle
import CoServer.AsyncStream.Manager
import CoServer.Http.Dump
import CoServer.Http.Limits
import CoServer.Http.PoolLifetime
import CoServer.NameServer.DomainSettled
import CoServer.NameServer.Endpoints
import CoServer.LoadBalance.InFlight
import CoServer.LoadBalance.Window
import CoServer.LoadBalance.Weight
import CoServer.Config.Notifications
import CoServer.Db.RedisManager
import CoServer.Db.FoxThread
import CoServer.Db.PoolTasks
import CoServer.Db.FoxCommands
import CoServer.Db.Transaction
import CoServer.Db.MySQLStmt
import CoServer.Db.SQLite3
import CoServer.Db.MySQLResult
import CoServer.Uri
import CoServer.Email.Smtp
import CoServer.Http.SessionData
import CoServer.Db.PoolCheck
