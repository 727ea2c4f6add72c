import Lloms.Lib.Machine
import Lloms.Lib.MachineInt
import Lloms.Order
import Lloms.RiskGate
import Lloms.Session.Basic
import Lloms.Session.Delivery
import Lloms.Session.Logon
import Lloms.Session.Recovery
import Lloms.Session.Resend
import Lloms.Ring.Fifo
import Lloms.Lib.OrdMap
import Lloms.Lib.RunningSums
import Lloms.Matching.OrderBook
import Lloms.Matching.Engine
import Lloms.Matching.PriceTime
import Lloms.Matching.Relabel
import Lloms.Feed.Frame
import Lloms.Feed.Load
import Lloms.Wire.Checksum
import Lloms.Wire.FrameDecoder
import Lloms.Wire.Reference
import Lloms.Wire.Chunking
import Lloms.Router.ClientIds
import Lloms.Wire.Encode
import Lloms.Wire.RoundTrip
import Lloms.Wire.Lossless
import Lloms.Session.Convergence
import Lloms.Session.HeldAdmin
import Lloms.Session.Pair
import Lloms.Feed.Handler
import Lloms.Feed.Shutdown
import Lloms.Feed.UringShutdown
import Lloms.Matching.Index
import Lloms.Matching.Uncrossed
import Lloms.Matching.Ledger
import Lloms.Matching.CancelUndo
import Lloms.Matching.Cancelling
import Lloms.Feed.Consumer
import Lloms.Feed.Handshake
import Lloms.Lib.ReleaseAcquire
import Lloms.Ring.SpscWeak
import Lloms.Feed.HandshakeWeak
import Lloms.Ring.Shm
import Lloms.Ring.ShmBounds
import Lloms.Ring.ShmGeometry
import Lloms.Ring.ShmRefines
import Lloms.Lib.Channels
import Lloms.Ring.Link
import Lloms.Ring.Ipc
import Lloms.Ring.ShmRestart
import Lloms.Lib.Holdings
import Lloms.Ring.PosixShm
import Lloms.Ring.PosixHandles
import Lloms.Ring.PosixNames
import Lloms.Feed.UringMemory
import Lloms.Feed.UringBooks
import Lloms.Feed.UringSafe
import Lloms.Feed.UringStreams
import Lloms.Config
import Lloms.ConfigText
import Lloms.Router.Configure
import Lloms.Router.Tables
import Lloms.Router.Passes
import Lloms.Router.Configured
import Lloms.Router.Numbering
import Lloms.Router.Symbol
import Lloms.Lib.Gaps
import Lloms.Lib.LogLinear
import Lloms.Lib.Ranks
import Lloms.Wire.SeqGaps
import Lloms.Wire.Memory
import Lloms.Wire.Balance
import Lloms.Wire.InBounds
import Lloms.Wire.Fletcher
import Lloms.Session.Liveness
import Lloms.Session.Disconnect
import Lloms.Session.Rejection
import Lloms.Session.Forward
import Lloms.Session.Conservation
import Lloms.Histogram.Buckets
import Lloms.Histogram.Percentile
