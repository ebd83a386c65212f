import TinyHTTP.Lib.DList
import TinyHTTP.Timer.LstTimer
import TinyHTTP.Timer.Pending
import TinyHTTP.Timer.Runs
import TinyHTTP.Timer.Firing
import TinyHTTP.Lib.Run
import TinyHTTP.Server.State
import TinyHTTP.Server.Accounting
import TinyHTTP.Http.Parser
import TinyHTTP.Http.Line
import TinyHTTP.Http.Locality
import TinyHTTP.Http.Frame
import TinyHTTP.Http.Head
import TinyHTTP.Http.Segmentation
import TinyHTTP.Lib.CString
import TinyHTTP.Http.PostHead
import TinyHTTP.Http.Body
import TinyHTTP.Http.Answer
import TinyHTTP.Http.Send
import TinyHTTP.Http.Isolation
import TinyHTTP.Server.Workers
import TinyHTTP.Server.Custody
import TinyHTTP.Server.Tasks
import TinyHTTP.Http.Registration
import TinyHTTP.Lib.SqlText
import TinyHTTP.Http.SqlInsert
import TinyHTTP.Lib.Threads
import TinyHTTP.Pool.ConnectionPool
import TinyHTTP.Pool.Threadpool
import TinyHTTP.Lib.Refine
import TinyHTTP.Log.BlockQueue
import TinyHTTP.Log.Wakeups
import TinyHTTP.Log.WriteLog
import TinyHTTP.Http.RequestedFile
import TinyHTTP.Lib.LexPath
import TinyHTTP.Version01.AcceptRequest
import TinyHTTP.Version02.HandleRequest
import TinyHTTP.Paths
import TinyHTTP.Http.BodyBounds
import TinyHTTP.Http.RequestLine
import TinyHTTP.Http.BadLine
import TinyHTTP.Http.Credentials
import TinyHTTP.Lib.SList
import TinyHTTP.Version02.LogList
import TinyHTTP.Version02.LogWork
import TinyHTTP.Log.LineOrder
import TinyHTTP.Version01.ServeRequest
import TinyHTTP.Version01.Sockets
import TinyHTTP.Http.Mapping
import TinyHTTP.Http.Conversation
import TinyHTTP.Http.KeepAlive
import TinyHTTP.Log.Front
import TinyHTTP.Timer.Adjust
import TinyHTTP.Http.InPlace
import TinyHTTP.Http.PathBuffer
import TinyHTTP.Http.LoginPages
import TinyHTTP.Http.Sizes
import TinyHTTP.Log.FileNames
import TinyHTTP.Log.LineBuffer
import TinyHTTP.Log.Rotation
import TinyHTTP.Log.Partition
import TinyHTTP.Pool.Interrupted
import TinyHTTP.Pool.Capacity
import TinyHTTP.Pool.DestroyPool
import TinyHTTP.Server.Descriptors
import TinyHTTP.Version01.HeadLines
import TinyHTTP.Version01.CgiInput
import TinyHTTP.Version01.Cat
import TinyHTTP.Version01.RequestStrings
import TinyHTTP.Version02.RequestFields
import TinyHTTP.Version02.StaleBytes
import TinyHTTP.Lib.Taking
import TinyHTTP.Version02.FileReply
import TinyHTTP.Version02.LogBuffer
import TinyHTTP.Version02.InitConf
import TinyHTTP.Http.Cursors
import TinyHTTP.Http.WriteBuffer
import TinyHTTP.Http.Wire
import TinyHTTP.Lib.Filter
import TinyHTTP.Lib.Inevitable
import TinyHTTP.Pool.Drain
import TinyHTTP.Server.Heartbeat
import TinyHTTP.Version01.CgiPipes
import TinyHTTP.Version01.CgiProgress
import TinyHTTP.Version02.Dialogue
import TinyHTTP.Version02.EventLoop
import TinyHTTP.Version02.Ownership
import TinyHTTP.Version02.Placement
import TinyHTTP.Http.FormBody
import TinyHTTP.Http.Serve
import TinyHTTP.Http.Restart
import TinyHTTP.Log.SharedLog
