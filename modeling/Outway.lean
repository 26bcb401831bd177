import Outway.Config
import Outway.Ext
import Outway.Lib.NetHost
import Outway.Lib.Reader
import Outway.Connect.ModBound
import Outway.Connect.Assign
import Outway.Connect.Source
import Outway.Connect.DnsCache
import Outway.Connect.DnsInvariants
import Outway.Connect.DnsCancel
import Outway.Socks.Address
import Outway.Socks.Handshake
import Outway.Lib.Prog
import Outway.Udp.Runtime
import Outway.Udp.Batch
import Outway.Udp.Association
import Outway.Udp.Bounds
import Outway.Udp.BatchSend
import Outway.Udp.Packets
import Outway.Udp.Coalesce
import Outway.Udp.System
import Outway.Udp.Holdings
import Outway.Udp.Ledger
import Outway.Udp.Requests
import Outway.Udp.Authorized
import Outway.Socks.Codec
import Outway.Lib.ReadSource
import Outway.Socks.Input
import Outway.Server.Tunnel
import Outway.Server.HalfClose
import Outway.Serverbase.Accept
import Outway.Serverbase.Gate
import Outway.Serverbase.Shutdown
import Outway.Connect.Race
import Outway.Udp.Reactor
import Outway.Udp.ReactorSafety
import Outway.Udp.ReactorReuse
import Outway.Connect.Words
import Outway.Connect.Sticky
import Outway.Connect.Range
import Outway.Lib.Packing
import Outway.Udp.Segments
import Outway.Http.Pool
import Outway.Lib.Base64
import Outway.Http.Auth
import Outway.Server.Commands
import Outway.Udp.Dispatcher
import Outway.Udp.DispatchThreads
import Outway.Udp.DispatchOrder
import Outway.Udp.DispatchShutdown
import Outway.Ext.Grammar
import Outway.Ext.Window
import Outway.Connect.Mapped
import Outway.Http.Headers
import Outway.Server.Route
import Outway.Udp.Response
import Outway.Udp.Split
import Outway.Udp.SendPacket
import Outway.Lib.Interp
import Outway.Serverbase.Lifecycle
import Outway.Serverbase.WaitGroup
import Outway.Serverbase.Drain
import Outway.Serverbase.Unblocked
import Outway.Lib.Monitor
import Outway.Http.Target
import Outway.Http.Session
import Outway.Http.Exchange
import Outway.Server.Copy
import Outway.Server.CopySafety
import Outway.Server.CopyBytes
import Outway.Server.CopyFinish
