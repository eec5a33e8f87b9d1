import Libhbk.Base.Machine
import Libhbk.Base.NodeMap
import Libhbk.Base.Arith
import Libhbk.Base.Bytes
import Libhbk.Sys.Epoll
import Libhbk.Sys.Files
import Libhbk.Sys.EventLoop.Registry
import Libhbk.Sys.EventLoop.Refinement
import Libhbk.Sys.EventLoop.Change
import Libhbk.Sys.EventLoop.Execute
import Libhbk.Sys.EventLoop.Pending
import Libhbk.Sys.EventLoop.Race
import Libhbk.Sys.EventLoop.Batch
import Libhbk.Sys.EventLoop.Serve
import Libhbk.Sys.EventLoop.Stop
import Libhbk.Sys.EventLoop.Drain
import Libhbk.Communication.BufferedReader
import Libhbk.Communication.ReceiveComplete
import Libhbk.Communication.SendBlocks
import Libhbk.Communication.SocketNonblocking
import Libhbk.Communication.Disconnect
import Libhbk.Sys.Timer
import Libhbk.Communication.Callbacks
import Libhbk.Base.Memory
import Libhbk.Communication.Netlink.Telegram
import Libhbk.Communication.Netlink.Bounds
import Libhbk.Communication.Netlink.Decode
import Libhbk.Sys.Notifier
import Libhbk.Sys.EventLoop.Watched
import Libhbk.Sys.EventLoop.Recall
import Libhbk.Sys.EventLoop.Source
import Libhbk.Communication.Accept
import Libhbk.Communication.EdgeTriggered
import Libhbk.Communication.TcpServer
import Libhbk.Communication.MulticastServer
import Libhbk.Communication.Ownership
import Libhbk.Communication.Stopping
import Libhbk.Communication.SendArray
import Libhbk.Communication.SendBlock
import Libhbk.Sys.Timer.Reentry
import Libhbk.Sys.Timer.OneShot
import Libhbk.Sys.Timer.Race
import Libhbk.Sys.Windows.Timer
import Libhbk.Sys.Windows.TimerRace
import Libhbk.Communication.Windows.BufferedReader
import Libhbk.Communication.Windows.MulticastServer
import Libhbk.Communication.Windows.SocketNonblocking
import Libhbk.Base.Fraction
import Libhbk.Sys.TimeConvert
import Libhbk.Communication.ReceiveBlock
import Libhbk.Communication.SendProgress
import Libhbk.Communication.Windows.ReceiveBlock
import Libhbk.Communication.Windows.SendBlocks
import Libhbk.Sys.Windows.EventLoop
import Libhbk.Base.Loop
import Libhbk.Base.Occurrence
import Libhbk.Strings.Split
import Libhbk.Strings.Replace
import Libhbk.Base.Decimal
import Libhbk.Communication.Ipv4Address
import Libhbk.Strings.Trim
import Libhbk.Communication.Netmask
import Libhbk.Communication.Subnet
import Libhbk.Base.BigEndian
import Libhbk.Base.Hex
import Libhbk.Communication.Ipv6Address
import Libhbk.Communication.LinkLocal
import Libhbk.Base.OrderedMap
import Libhbk.Communication.MappedAddress
import Libhbk.Communication.Netadapter
import Libhbk.Communication.NetadapterList
import Libhbk.Communication.CheckSubnet
import Libhbk.Communication.UnixAddress
import Libhbk.Communication.MulticastSend
import Libhbk.Sys.Timer.Period
import Libhbk.Communication.ReaderBounds
import Libhbk.Communication.DefaultGateway
import Libhbk.Sys.ExecuteCommand
import Libhbk.Base.Potential
import Libhbk.Communication.Connection
import Libhbk.Communication.Netlink.Coherence
import Libhbk.Sys.EventLoop.Fairness
import Libhbk.Sys.EventLoop.StopDelivery
import Libhbk.Sys.Windows.Notifier
import Libhbk.Communication.Membership
import Libhbk.Communication.ReceiveTelegram
import Libhbk.Sys.EventLoop.Diligent
import Libhbk.Communication.Draining
import Libhbk.Communication.Telegrams
import Libhbk.Sys.Timer.Dispatch
import Libhbk.Sys.Windows.Overlapped
import Libhbk.Communication.Windows.Netlink
import Libhbk.Communication.Windows.TcpServer
