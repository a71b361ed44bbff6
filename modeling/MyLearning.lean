import MyLearning.MyMuduo.EventLoopThreadQuit
import MyLearning.MyMuduo.EventLoopThread
import MyLearning.BroadCast.MytbfSleepers
import MyLearning.BroadCast.MytbfSlots
import MyLearning.MyMuduo.TimerRetries
import MyLearning.MyMuduo.TimerStarts
import MyLearning.MyMuduo.TimerBatches
import MyLearning.MyMuduo.TimerLifetime
import MyLearning.MyMuduo.BufferIndices
import MyLearning.MyMuduo.BufferSpace
import MyLearning.MyMuduo.BufferLines
import MyLearning.MyMuduo.TimestampText
import MyLearning.Alog.HeapSort
import MyLearning.Alog.HeapCost
import MyLearning.Alog.HeapRange
import MyLearning.Alog.HeapSubtrees
import MyLearning.MyMuduo.InetAddressText
import MyLearning.MyMuduo.EventLoopThreadPool
import MyLearning.Cpp20.Primes
import MyLearning.MyMuduo.EventLoopFirstPoll
import MyLearning.MyMuduo.TimerArming
import MyLearning.MyMuduo.TimerCancel
import MyLearning.MyMuduo.BufferFifo
import MyLearning.MyMuduo.ConnectorAsserts
import MyLearning.MyMuduo.ConnectorSockets
import MyLearning.MyMuduo.EpollWatched
import MyLearning.MyMuduo.EventLoopDispatch
import MyLearning.MyMuduo.DispatchWakeup
import MyLearning.MyMuduo.ConnectorsDestroy
import MyLearning.Alog.TreeDestroy
import MyLearning.Alog.TreeHandles
import MyLearning.BroadCast.MytbfRate
import MyLearning.BroadCast.MytbfReturns
import MyLearning.BroadCast.MytbfOverflow
import MyLearning.Muduo.PollerDispatch
import MyLearning.Muduo.PollerMirror
import MyLearning.Muduo.TcpTeardown
import MyLearning.SDLRe.Frames
import MyLearning.SDLRe.PlayerPortals
import MyLearning.LinuxSystemProgram.MyduCounts
import MyLearning.Lib.Walk
import MyLearning.MyMuduo.AcceptorAccounts
import MyLearning.MyMuduo.EventLoopQuit
import MyLearning.MyMuduo.EventLoopRounds
import MyLearning.MyMuduo.EventLoopResponse
import MyLearning.MyMuduo.LogStreamContent
import MyLearning.MyMuduo.TimerCancelThreads
import MyLearning.MyMuduo.ThreadStart
import MyLearning.MyMuduo.LoggingRecords
import MyLearning.MyMuduo.ConnectorBackoff
import MyLearning.MyMuduo.TimerIds
import MyLearning.BroadCast.MytbfUnload
import MyLearning.MyMuduo.BufferGrowth
import MyLearning.MyMuduo.PoolStart
