import UltrafastFeed.Lib.Run
import UltrafastFeed.Spsc.Model
import UltrafastFeed.Spsc.Steps
import UltrafastFeed.Spsc.Invariant
import UltrafastFeed.Spsc.Fifo
import UltrafastFeed.FeedEvent
import UltrafastFeed.Lib.ByteFile
import UltrafastFeed.Pcap.Writer
import UltrafastFeed.Pcap.Reader
import UltrafastFeed.Pcap.RoundTrip
import UltrafastFeed.Pcap.Crash
import UltrafastFeed.Pcap.Failure
import UltrafastFeed.Lib.Reads
import UltrafastFeed.Packet.Model
import UltrafastFeed.Packet.Event
import UltrafastFeed.Umem.Conservation
import UltrafastFeed.Umem.RxTx
import UltrafastFeed.Umem.Leak
import UltrafastFeed.Handler.Model
import UltrafastFeed.Handler.Steps
import UltrafastFeed.Handler.Frames
import UltrafastFeed.Handler.Restart
import UltrafastFeed.Handler.Accounting
import UltrafastFeed.Lib.Machine
import UltrafastFeed.Pcap.Cursor
import UltrafastFeed.Pcap.Copy
import UltrafastFeed.Spsc.Alone
import UltrafastFeed.Spsc.Sequential
import UltrafastFeed.Spsc.Queries
import UltrafastFeed.Packet.Headers
import UltrafastFeed.Packet.Wire
import UltrafastFeed.PayloadLen
import UltrafastFeed.Lib.DescRing
import UltrafastFeed.Socket.Model
import UltrafastFeed.Socket.Transfer
import UltrafastFeed.Socket.TxFrames
import UltrafastFeed.Pcap.Schedule
import UltrafastFeed.Spsc.Peek
import UltrafastFeed.Lib.Ledger
import UltrafastFeed.Pcap.Handles
import UltrafastFeed.Umem.Object
import UltrafastFeed.Umem.Geometry
import UltrafastFeed.Umem.Lifecycle
import UltrafastFeed.Handler.Stop
import UltrafastFeed.Lib.Progress
import UltrafastFeed.Spsc.WaitFree
import UltrafastFeed.Packet.Bounds
import UltrafastFeed.Handler.Progress
import UltrafastFeed.Handler.Contents
import UltrafastFeed.Pipeline.Latency
import UltrafastFeed.Lib.Pacer
import UltrafastFeed.Pcap.RealTime
import UltrafastFeed.Lib.Statistics
import UltrafastFeed.Tools.Generate
import UltrafastFeed.Tools.Report
import UltrafastFeed.Lib.Layers
import UltrafastFeed.Socket.Lifecycle
import UltrafastFeed.Handler.Lifetime
import UltrafastFeed.Lib.Histories
import UltrafastFeed.Spsc.Linearizable
import UltrafastFeed.Sender.Descriptors
