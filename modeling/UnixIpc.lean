import UnixIpc.Lib.Bytes
import UnixIpc.Lib.DottedQuad
import UnixIpc.Lib.Descriptors
import UnixIpc.Lib.Ledger
import UnixIpc.Lib.Owners
import UnixIpc.Fifo.Package
import UnixIpc.Fifo.Untrusted
import UnixIpc.Lib.Run
import UnixIpc.Lib.Potential
import UnixIpc.Lib.Pipe
import UnixIpc.Lib.Links
import UnixIpc.Fifo.EchoServer
import UnixIpc.Fifo.EchoRouting
import UnixIpc.Fifo.EchoSessions
import UnixIpc.Fifo.EchoConversations
import UnixIpc.Fifo.EchoClient
import UnixIpc.Fifo.EchoFraming
import UnixIpc.Fifo.EchoHandshake
import UnixIpc.Fifo.EchoReady
import UnixIpc.Fifo.EchoRest
import UnixIpc.Fifo.EchoStarved
import UnixIpc.Fifo.EchoServed
import UnixIpc.Fifo.SimplePair
import UnixIpc.Fifo.LongNames
import UnixIpc.Fifo.SimpleServed
import UnixIpc.Lib.IndexLoop
import UnixIpc.Engine.Address
import UnixIpc.Engine.AddressText
import UnixIpc.Engine.Acceptor
import UnixIpc.Engine.Dispatch
import UnixIpc.Engine.MoveAssign
import UnixIpc.Engine.Calls
import UnixIpc.Lib.Replies
import UnixIpc.Engine.Buffer
import UnixIpc.Engine.BufferCalls
import UnixIpc.Engine.DynamicBuffer
import UnixIpc.Engine.ScopeGuard
import UnixIpc.Engine.Sender
import UnixIpc.Engine.IoOperations
import UnixIpc.Engine.Receiver
import UnixIpc.Engine.Delivery
import UnixIpc.Engine.Receive
import UnixIpc.Engine.MultiThread
import UnixIpc.Engine.ReceiverMoves
import UnixIpc.Engine.Ownership
import UnixIpc.Engine.Closing
import UnixIpc.Engine.Finished
import UnixIpc.Engine.Connections
import UnixIpc.Servers.Request
import UnixIpc.Servers.SelectServer
import UnixIpc.Servers.PollServer
import UnixIpc.Servers.Echo
import UnixIpc.Servers.SimpleServer
import UnixIpc.Servers.BrokenConnection
import UnixIpc.Servers.Bookkeeping
import UnixIpc.Servers.Rounds
import UnixIpc.Servers.Agreement
import UnixIpc.Servers.Reported
import UnixIpc.Servers.Segments
import UnixIpc.Servers.PollStop
import UnixIpc.Servers.Readiness
import UnixIpc.Servers.AcceptLoop
import UnixIpc.Servers.SelectStop
import UnixIpc.Servers.Traffic
import UnixIpc.Clients.TcpClient
import UnixIpc.Clients.Dialogue
import UnixIpc.Servers.ThreadServer
import UnixIpc.Engine.Exchange
import UnixIpc.Servers.MultiplexServer
import UnixIpc.Clients.Dialing
import UnixIpc.Clients.Datagram
