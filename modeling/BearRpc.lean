import BearRpc.Theory.Receiver
import BearRpc.RPCException
import BearRpc.Connection
import BearRpc.Framing
import BearRpc.Server.Framing
import BearRpc.Client.Framing
import BearRpc.Wire
import BearRpc.Server.Segmentation
import BearRpc.Server.Batch
import BearRpc.Server.OnMessage
import BearRpc.Server.BatchResponse
import BearRpc.Client.Responses
import BearRpc.Theory.CallTable
import BearRpc.Theory.UnorderedMap
import BearRpc.Client.Callbacks
import BearRpc.Client.History
import BearRpc.Client.Guarantees
import BearRpc.Client.Arrival
import BearRpc.Client.Identifiers
import BearRpc.Agreement
import BearRpc.Server.Notifications
import BearRpc.Server.Grammar
import BearRpc.Server.Resolution
import BearRpc.Tcp.SizeT
import BearRpc.Tcp.Deque
import BearRpc.Tcp.TimerQueue
import BearRpc.Theory.Ledger
import BearRpc.Tcp.TimerOwnership
import BearRpc.Tcp.TimerFiring
import BearRpc.Tcp.TimerSchedule
import BearRpc.Tcp.TimerArming
import BearRpc.Tcp.EventLoop
import BearRpc.Tcp.Wakeup
import BearRpc.Tcp.TimerThreads
import BearRpc.Tcp.BeforeLoop
import BearRpc.Tcp.LoopExit
import BearRpc.Tcp.EventLoopThread
import BearRpc.Tcp.ThreadPool
import BearRpc.Tcp.ThreadPoolStop
import BearRpc.Tcp.Channel
import BearRpc.Tcp.Interest
import BearRpc.Tcp.Dispatch
import BearRpc.Tcp.Connector
import BearRpc.Tcp.Acceptor
import BearRpc.Theory.MachineInt
import BearRpc.Partition.Blocks
import BearRpc.Theory.Distance
import BearRpc.Partition.Claims
import BearRpc.Partition.Layers
import BearRpc.Partition.Exclusive
import BearRpc.Partition.Reach
import BearRpc.Partition.Assignment
import BearRpc.Partition.Halo
import BearRpc.Partition.NodeMap
import BearRpc.Partition.Bookkeeping
import BearRpc.Partition.Bounds
import BearRpc.Partition.Sampling
import BearRpc.Partition.Messages
import BearRpc.Partition.Balance
import BearRpc.Theory.IntStream
import BearRpc.Theory.ReadLoop
import BearRpc.Partition.Readers
import BearRpc.Partition.Division
import BearRpc.Partition.Check
import BearRpc.Tcp.Integers
import BearRpc.Session.Calls
import BearRpc.Session.Correct
import BearRpc.Sage.Blocks
import BearRpc.Sage.Inference
import BearRpc.Launch.Cleanup
import BearRpc.Launch.Jobs
import BearRpc.Launch.Groups
import BearRpc.Launch.Commands
import BearRpc.Launch.Shell
import BearRpc.Launch.Submit
import BearRpc.Store.Returns
import BearRpc.Store.Served
