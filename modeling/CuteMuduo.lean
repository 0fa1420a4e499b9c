import CuteMuduo.Lib.Run
import CuteMuduo.Lib.Fifo
import CuteMuduo.Lib.Search
import CuteMuduo.EventLoop
import CuteMuduo.EventLoop.Queue
import CuteMuduo.EventLoop.Wakeup
import CuteMuduo.EventLoop.Quit
import CuteMuduo.EventLoopThread
import CuteMuduo.Buffer
import CuteMuduo.Buffer.Calls
import CuteMuduo.Buffer.Limits
import CuteMuduo.Buffer.Lines
import CuteMuduo.Buffer.Stale
import CuteMuduo.Buffer.Growth
import CuteMuduo.EpollPoller
import CuteMuduo.EpollPoller.Channels
import CuteMuduo.InetAddress
import CuteMuduo.TcpConnection
import CuteMuduo.TcpConnection.Exec
import CuteMuduo.TcpConnection.SendBuffer
import CuteMuduo.TcpServer
import CuteMuduo.TcpServer.Step
import CuteMuduo.TcpServer.Placement
import CuteMuduo.TcpServer.Flight
import CuteMuduo.TcpServer.Established
import CuteMuduo.TcpServer.Confinement
import CuteMuduo.TcpServer.State
import CuteMuduo.TcpServer.Registry
import CuteMuduo.TcpServer.Frames
import CuteMuduo.TcpServer.ServerEnd
import CuteMuduo.TcpServer.Dispatch
import CuteMuduo.TcpServer.Ownership
import CuteMuduo.TcpServer.Interest
import CuteMuduo.TcpServer.Stream
import CuteMuduo.TcpServer.SendError
import CuteMuduo.TcpServer.Notify
import CuteMuduo.TcpServer.Shutdown
import CuteMuduo.TcpServer.Input
import CuteMuduo.TcpServer.Destroyed
import CuteMuduo.TcpServer.Callbacks
import CuteMuduo.TcpServer.Calls
import CuteMuduo.TcpServer.Progress
import CuteMuduo.TcpServer.Work
import CuteMuduo.TcpServer.Round
import CuteMuduo.TcpServer.Memory
import CuteMuduo.TcpServer.RoundRobin
import CuteMuduo.EchoServer
import CuteMuduo.EchoServer.Stands
import CuteMuduo.EchoServer.Integrity
import CuteMuduo.EchoServer.Live
import CuteMuduo.EchoServer.Memory
import CuteMuduo.Startup
import CuteMuduo.Startup.Order
import CuteMuduo.Startup.Return
import CuteMuduo.Startup.Program
