import MarketFeed.Lib.Run
import MarketFeed.Lib.Framing
import MarketFeed.Lib.Bytes
import MarketFeed.Protocol
import MarketFeed.Lemmas.Checksum
import MarketFeed.RingBuffer
import MarketFeed.RingThreads
import MarketFeed.Lemmas.RingInv
import MarketFeed.Theorems.RingFifo
import MarketFeed.SpscQueue
import MarketFeed.Theorems.SpscFifo
import MarketFeed.Parser
import MarketFeed.Scan
import MarketFeed.Lemmas.ParserScan
import MarketFeed.Lemmas.Processed
import MarketFeed.TickGenerator
import MarketFeed.Frame
import MarketFeed.Lemmas.Resync
import MarketFeed.Theorems.Refinement
import MarketFeed.Theorems.RoundTrip
import MarketFeed.ParserOps
import MarketFeed.Theorems.ResetStats
import MarketFeed.Theorems.GapAccounting
import MarketFeed.Theorems.Duplicates
import MarketFeed.ExchangeSimulator
import MarketFeed.Theorems.FaultInjection
import MarketFeed.Theorems.Reconnect
import MarketFeed.Theorems.Corruption
import MarketFeed.Theorems.CorruptionCount
import MarketFeed.Theorems.RecvTimes
import MarketFeed.Cache
import MarketFeed.Theorems.Seqlock
import MarketFeed.SymbolCache
import MarketFeed.Theorems.CacheFold
import MarketFeed.Heartbeat
import MarketFeed.Theorems.HeartbeatTimeout
import MarketFeed.ClientManager
import MarketFeed.Lemmas.ClientSend
import MarketFeed.Lemmas.ClientRuns
import MarketFeed.Theorems.ByteStream
import MarketFeed.Theorems.SendQueue
import MarketFeed.Socket
import MarketFeed.Theorems.SubscribeRoundTrip
import MarketFeed.Theorems.Broadcast
import MarketFeed.SendThreads
import MarketFeed.Theorems.Wakeup
import MarketFeed.ResetThreads
import MarketFeed.Lemmas.ResetInv
import MarketFeed.Theorems.Occupancy
import MarketFeed.Theorems.Subscriptions
import MarketFeed.FeedHandler
import MarketFeed.Lemmas.ConnectionFlags
import MarketFeed.Theorems.ConnectionState
import MarketFeed.Theorems.GiveUp
import MarketFeed.Theorems.PeerClose
import MarketFeed.Theorems.Overflow
import MarketFeed.Lib.Edges
import MarketFeed.LatencyTracker
import MarketFeed.Lib.Rank
import MarketFeed.Theorems.Percentiles
import MarketFeed.LatencyThreads
import MarketFeed.Lemmas.TrackerInv
import MarketFeed.Theorems.ConcurrentRecord
import MarketFeed.Theorems.TrackerReset
import MarketFeed.Display
import MarketFeed.Theorems.DisplayIndex
import MarketFeed.Theorems.ErrorDetection
import MarketFeed.Theorems.ProcessAccounts
import MarketFeed.Theorems.BytesSent
import MarketFeed.StatsLog
import MarketFeed.Lib.KeySums
import MarketFeed.Theorems.MessageStats
import MarketFeed.Theorems.BucketRange
import MarketFeed.Theorems.CsvExport
import MarketFeed.CheckedLoop
import MarketFeed.Theorems.TickArithmetic
import MarketFeed.Lib.Linked
import MarketFeed.MemoryPool
import MarketFeed.Theorems.PoolSlots
import MarketFeed.Lib.BitPoly
import MarketFeed.Lib.Lanes
import MarketFeed.Xoshiro
import MarketFeed.Lemmas.StateUpdate
import MarketFeed.Theorems.Jump
import MarketFeed.Theorems.NonzeroState
import MarketFeed.Theorems.BucketEdges
import MarketFeed.Lib.Topic
import MarketFeed.Pipeline
import MarketFeed.Lemmas.ClientMoves
import MarketFeed.Lemmas.Carried
import MarketFeed.Theorems.EndToEnd
import MarketFeed.Theorems.Drained
import MarketFeed.StatsThreads
import MarketFeed.Theorems.Shutdown
import MarketFeed.Theorems.Waking
import MarketFeed.Theorems.Backoff
import MarketFeed.Theorems.ConcurrentStats
import MarketFeed.Theorems.ClientsApart
import MarketFeed.AcceptLoop
import MarketFeed.Theorems.Descriptors
import MarketFeed.Lemmas.AcceptMoves
import MarketFeed.Theorems.Handshake
import MarketFeed.Theorems.RequestRead
import MarketFeed.Theorems.ServerStop
import MarketFeed.Theorems.Canonical
import MarketFeed.PriceProcess
import MarketFeed.Theorems.Generator
import MarketFeed.Lib.Cyclic
import MarketFeed.Theorems.RoundRobin
import MarketFeed.Lemmas.DisplayMirror
import MarketFeed.Theorems.Frames
