import Libuv.Core.LTS
import Libuv.L1Data.Heap
import Libuv.Core.TreeHeap
import Libuv.L1Data.HeapLayout
import Libuv.L1Data.HeapRun
import Libuv.L4Concurrency.ThreadPool
import Libuv.L4Concurrency.ThreadPoolLife
import Libuv.L4Concurrency.ThreadPoolWake
import Libuv.L4Concurrency.ThreadPoolSlow
import Libuv.L2Loop.IoWatcher
import Libuv.L2Loop.IoWatcherTable
import Libuv.L2Loop.IoWatcherBatch
import Libuv.Core.Fairness
import Libuv.L4Concurrency.Async
import Libuv.L4Concurrency.AsyncSafety
import Libuv.L4Concurrency.AsyncLive
import Libuv.L3Stream.Stream
import Libuv.Core.Sat
import Libuv.L3Stream.Requests
import Libuv.L3Stream.Rules
import Libuv.L2Loop.Handle
import Libuv.Core.Ring
import Libuv.L1Data.Queue
import Libuv.L2Loop.LoopWatcher
import Libuv.L1Data.Utf8
import Libuv.L2Loop.Timer
import Libuv.L2Loop.TimerRun
import Libuv.L2Loop.RunTimeout
import Libuv.L2Loop.Closing
import Libuv.L2Loop.ClosingRun
import Libuv.L2Loop.Fork
import Libuv.L2Loop.Poll
import Libuv.L1Data.Inet
import Libuv.L1Data.InetRoundTrip
import Libuv.Core.Punycode
import Libuv.L1Data.Idna
import Libuv.L1Data.IdnaLabel
import Libuv.Core.Ordered
import Libuv.L2Loop.Signal
import Libuv.L2Loop.SignalTree
import Libuv.L2Loop.SignalRun
import Libuv.L2Loop.SignalAccounting
import Libuv.L2Loop.SignalModes
import Libuv.L2Loop.SignalRestart
import Libuv.L3Stream.Udp
import Libuv.L3Stream.UdpQueue
import Libuv.L3Stream.UdpClose
import Libuv.L3Stream.UdpBatch
import Libuv.L2Loop.Inotify
import Libuv.L2Loop.InotifyRun
import Libuv.L2Loop.InotifyFork
import Libuv.Core.Chain
import Libuv.L2Loop.FsPoll
import Libuv.L2Loop.FsPollPeriods
import Libuv.L2Loop.FsPollTeardown
import Libuv.L3Stream.Refine
import Libuv.L3Stream.WriteOrder
import Libuv.L3Stream.WriteSize
import Libuv.L3Stream.Completion
import Libuv.L3Stream.Progress
import Libuv.L1Data.QueueWalk
import Libuv.L2Loop.Process
import Libuv.L2Loop.ProcessExit
import Libuv.L3Stream.Listen
import Libuv.L3Stream.Reader
import Libuv.L3Stream.ReadInterest
import Libuv.L3Stream.EndOfStream
import Libuv.L2Loop.Run
import Libuv.Core.CondVar
import Libuv.L4Concurrency.Barrier
import Libuv.L4Concurrency.Semaphore
import Libuv.L4Concurrency.Once
import Libuv.Core.CommandLine
import Libuv.L1Data.ProgramArgs
import Libuv.Core.Unrolled
import Libuv.L5Windows.FdHash
import Libuv.Core.Circular
import Libuv.L5Windows.PendingReqs
import Libuv.L5Windows.DirEnum
import Libuv.L5Windows.VectorIo
import Libuv.L5Windows.Junction
import Libuv.L5Windows.TtyRaw
import Libuv.L5Windows.Endgame
import Libuv.L5Windows.AsyncWakeup
import Libuv.L5Windows.SignalReq
import Libuv.L5Windows.PollReqs
import Libuv.L5Windows.FsEvent
import Libuv.Core.FlatFile
import Libuv.Core.Loop
import Libuv.L5Windows.PipeRead
import Libuv.L5Windows.PipeWrite
import Libuv.L5Windows.FileMap
import Libuv.Core.FdTable
import Libuv.L2Loop.ChildStdio
import Libuv.L2Loop.SpawnActions
import Libuv.L2Loop.SpawnOwnership
import Libuv.L2Loop.Kqueue
import Libuv.L2Loop.ZosEpoll
import Libuv.L2Loop.PosixPoll
import Libuv.L2Loop.PosixPollBatch
import Libuv.L5Windows.ReadActive
import Libuv.L5Windows.TtyWrite
import Libuv.L5Windows.FileMapConc
import Libuv.L6Files.FsWrite
import Libuv.L6Files.FsRead
import Libuv.L6Files.Sendfile
import Libuv.L6Files.CopyFile
import Libuv.L6Files.FsReq
import Libuv.L6Files.FsDir
import Libuv.L1Data.InetGrammar
import Libuv.L1Data.Ip6Addr
import Libuv.L1Data.IdnaFit
import Libuv.L2Loop.PollTimeout
import Libuv.L2Loop.SignalFork
import Libuv.L2Loop.SignalPipe
import Libuv.L3Stream.UdpRecv
import Libuv.L3Stream.SendHandle
import Libuv.L3Stream.Submission
import Libuv.L3Stream.BlockingWrite
import Libuv.L3Stream.NullCallback
import Libuv.L1Data.IdnaName
import Libuv.L2Loop.Walk
import Libuv.Core.Merge
import Libuv.L1Data.OsEnviron
import Libuv.L1Data.ProgramEnv
import Libuv.Core.Pieces
import Libuv.L1Data.SearchPath
import Libuv.L2Loop.SpawnPath
import Libuv.Core.Bytes
import Libuv.Core.CInt
import Libuv.L1Data.ProcTitle
import Libuv.Core.Count
import Libuv.L5Windows.IpcWrite
import Libuv.L5Windows.PipeWriteFail
import Libuv.L5Windows.PipeQueue
import Libuv.L5Windows.UdpRecvReq
import Libuv.L1Data.ProcStat
import Libuv.L1Data.WideChar
import Libuv.L5Windows.TtyCsi
import Libuv.L5Windows.TtyErrors
import Libuv.L5Windows.TtyEol
import Libuv.L5Windows.LoopWatchers
