import Minnow.Lib.Except
import Minnow.Lib.Machine
import Minnow.Lib.OrdMap
import Minnow.Lib.LatestMax
import Minnow.Lib.Loop
import Minnow.Lib.BigEndian
import Minnow.Lib.OnesComplement
import Minnow.Lib.Nearest
import Minnow.Word
import Minnow.ByteStream
import Minnow.ByteStream.Fifo
import Minnow.WrappingIntegers
import Minnow.Reassembler.Basic
import Minnow.Reassembler.Insert
import Minnow.Reassembler.Runs
import Minnow.Reassembler.ByteSet
import Minnow.Reassembler.Accept
import Minnow.Reassembler.Final
import Minnow.Reassembler.Closing
import Minnow.Reassembler.Placed
import Minnow.Reassembler.Reads
import Minnow.Reassembler.Empty
import Minnow.Reassembler.Outside
import Minnow.Reassembler.Represented
import Minnow.Tcp.Messages
import Minnow.Tcp.Receiver
import Minnow.Tcp.BeforeSyn
import Minnow.Tcp.Acknowledge
import Minnow.Tcp.Advertised
import Minnow.Tcp.Sender
import Minnow.Tcp.Segments
import Minnow.Tcp.Session
import Minnow.Tcp.Window
import Minnow.Tcp.Edge
import Minnow.Tcp.PushLoop
import Minnow.Tcp.Balance
import Minnow.Tcp.Stall
import Minnow.Tcp.Delivery
import Minnow.Tcp.Connection
import Minnow.Tcp.Timer
import Minnow.Tcp.Peer
import Minnow.Tcp.Shutdown
import Minnow.Tcp.Linger
import Minnow.Tcp.Reply
import Minnow.Tcp.Ignored
import Minnow.Tcp.Reset
import Minnow.Wire.Parser
import Minnow.Wire.Flat
import Minnow.Wire.Serializer
import Minnow.Wire.Checksum
import Minnow.Wire.IPv4
import Minnow.Wire.TCPSegment
import Minnow.Wire.TcpOverIp
import Minnow.Wire.Forwarding
import Minnow.Wire.Lengths
import Minnow.Wire.Ethernet
import Minnow.Net.Interface
import Minnow.Net.Session
import Minnow.Net.Mapping
import Minnow.Net.Requests
import Minnow.Net.Conservation
import Minnow.Net.Foreign
import Minnow.Net.Router
import Minnow.Net.Routing
import Minnow.Net.AddedRoutes
import Minnow.Net.LongestPrefix
import Minnow.Net.HostBits
import Minnow.Tcp.Duplex
import Minnow.Tcp.Agreement
import Minnow.Event.FileDescriptor
import Minnow.Event.EventLoop
import Minnow.Event.Rules
import Minnow.Event.Lifecycle
import Minnow.Event.StreamCopy
import Minnow.Event.MinnowSocket
import Minnow.Event.Endpoints
import Minnow.Wire.Frame
import Minnow.Net.Contents
import Minnow.Net.Neighbours
import Minnow.Net.Lan
import Minnow.Net.Internet
import Minnow.Net.EndToEnd
import Minnow.Reassembler.EndsBy
import Minnow.Tcp.Credit
import Minnow.Tcp.Backlog
import Minnow.Tcp.Serving
import Minnow.Tcp.Progress
