import Bc.VectorSizes
import Bc.HandlerRuns
import Bc.WaiterCount
import Bc.SubscribedMasks
import Bc.PollBuffer
import Bc.SocketWaiters
import Bc.StreamReads
import Bc.HandleOwnership
import Bc.FrameLifetime
import Bc.InterestSet
import Bc.FlushWakeups
import Bc.LoggerLifetime
import Bc.Ipv6Texts
import Bc.Addresses
import Bc.SleepTimers
import Bc.ErrorMessages
import Bc.DescriptorOwnership
import Bc.EventReports
import Bc.ServerClients
import Bc.FailedPosts
import Bc.Connecting
import Bc.ReprFormats
import Bc.ClientConnects
import Bc.FailedBinds
import Bc.WaitBounds
import Bc.ByteOrders
import Bc.EchoSessions
import Bc.TaskResults
import Bc.ThrowingCalls
import Bc.Overloads
import Bc.ExpectedValues
import Bc.RunCompletion
import Bc.TaskThreads
import Bc.EchoConnections
import Bc.Shutdowns
import Bc.LogCalls
import Bc.LogLines
import Bc.Readiness
import Bc.ReactorLoop
import Bc.SleepingThreads
import Bc.SpawnedThreads
import Bc.Registrations
import Bc.EchoServers
import Bc.EchoService
