import OptiTrade.Agreement.Delivery
import OptiTrade.Agreement.Exchange
import OptiTrade.Agreement.Simulator
import OptiTrade.Agreement.System
import OptiTrade.Book.Aggregation
import OptiTrade.Book.Changes
import OptiTrade.Book.Homes
import OptiTrade.Book.Ladder
import OptiTrade.Book.Live
import OptiTrade.Book.MarketBooks
import OptiTrade.Book.OrderBook
import OptiTrade.Book.Overflow
import OptiTrade.Book.Prices
import OptiTrade.Book.Reference
import OptiTrade.Book.Refinement
import OptiTrade.Core.Digest
import OptiTrade.Core.Draws
import OptiTrade.Core.FlatHashMap
import OptiTrade.Core.Rng
import OptiTrade.Core.RngCycle
import OptiTrade.Core.SlabPool
import OptiTrade.Core.SpscRing
import OptiTrade.Core.Types
import OptiTrade.Engine.Engine
import OptiTrade.Engine.Halt
import OptiTrade.Engine.MarketData
import OptiTrade.Engine.Steps
import OptiTrade.Engine.Waking
import OptiTrade.Foundations.BoundedMap
import OptiTrade.Foundations.Bytes
import OptiTrade.Foundations.CallStack
import OptiTrade.Foundations.Drawdown
import OptiTrade.Foundations.Framing
import OptiTrade.Foundations.GreedyFill
import OptiTrade.Foundations.IntrusiveList
import OptiTrade.Foundations.Layout
import OptiTrade.Foundations.Masks
import OptiTrade.Foundations.MovingAverage
import OptiTrade.Foundations.MultiplyShift
import OptiTrade.Foundations.PartitionPoint
import OptiTrade.Foundations.PrefixCode
import OptiTrade.Foundations.RingBuffer
import OptiTrade.Foundations.Runs
import OptiTrade.Foundations.ShareQueue
import OptiTrade.Foundations.Simulation
import OptiTrade.Foundations.SlabPool
import OptiTrade.Foundations.SlidingWindow
import OptiTrade.Foundations.StableSort
import OptiTrade.Foundations.Stdio
import OptiTrade.Foundations.Sums
import OptiTrade.Foundations.SwapRemoval
import OptiTrade.Foundations.TopK
import OptiTrade.Foundations.WordMaps
import OptiTrade.Itch.Decoder
import OptiTrade.Itch.Encoder
import OptiTrade.Itch.Messages
import OptiTrade.Itch.RoundTrip
import OptiTrade.Itch.Stream
import OptiTrade.Net.Demo
import OptiTrade.Net.Losses
import OptiTrade.Net.Mold64
import OptiTrade.Net.Packets
import OptiTrade.Net.Pipeline
import OptiTrade.Net.Reception
import OptiTrade.Net.Schedule
import OptiTrade.Net.Sender
import OptiTrade.Net.Sequence
import OptiTrade.Oms.Admission
import OptiTrade.Oms.Atomicity
import OptiTrade.Oms.Client
import OptiTrade.Oms.Convergence
import OptiTrade.Oms.Exposure
import OptiTrade.Oms.HardLimits
import OptiTrade.Oms.History
import OptiTrade.Oms.Invariant
import OptiTrade.Oms.Inventory
import OptiTrade.Oms.Ledger
import OptiTrade.Oms.Lifecycle
import OptiTrade.Oms.Lifetime
import OptiTrade.Oms.Listener
import OptiTrade.Oms.OrderManager
import OptiTrade.Oms.Overflow
import OptiTrade.Oms.Positions
import OptiTrade.Oms.Reports
import OptiTrade.Oms.Resolve
import OptiTrade.Oms.Session
import OptiTrade.Oms.Structure
import OptiTrade.Oms.Sweeps
import OptiTrade.Oms.Table
import OptiTrade.Oms.Wire
import OptiTrade.Ouch.Codec
import OptiTrade.Ouch.Messages
import OptiTrade.Ouch.RoundTrip
import OptiTrade.Ouch.Stream
import OptiTrade.Ouch.Wire
import OptiTrade.Protocol.Conformance
import OptiTrade.Protocol.Inbox
import OptiTrade.Protocol.View
import OptiTrade.Replay.Backtest
import OptiTrade.Replay.Books
import OptiTrade.Replay.Capture
import OptiTrade.Replay.Clock
import OptiTrade.Replay.Conversation
import OptiTrade.Replay.Generated
import OptiTrade.Replay.Inspect
import OptiTrade.Replay.ItchFile
import OptiTrade.Replay.Report
import OptiTrade.Replay.Settlement
import OptiTrade.Risk.Caches
import OptiTrade.Risk.Drawdown
import OptiTrade.Risk.Ledger
import OptiTrade.Risk.Limits
import OptiTrade.Risk.Operations
import OptiTrade.Risk.Overflow
import OptiTrade.Risk.Pnl
import OptiTrade.Risk.RateWindow
import OptiTrade.Risk.RiskEngine
import OptiTrade.Risk.Verdicts
import OptiTrade.Sim.Blotter
import OptiTrade.Sim.Causality
import OptiTrade.Sim.ExchangeSim
import OptiTrade.Sim.Fills
import OptiTrade.Sim.Floor
import OptiTrade.Sim.FloorRuns
import OptiTrade.Sim.Locates
import OptiTrade.Sim.Moves
import OptiTrade.Sim.Pressure
import OptiTrade.Sim.QueueModel
import OptiTrade.Sim.QueueRuns
import OptiTrade.Sim.QueueSteps
import OptiTrade.Sim.Queues
import OptiTrade.Sim.Refinement
import OptiTrade.Sim.Sources
import OptiTrade.Sim.Storage
import OptiTrade.Sim.Timing
import OptiTrade.Sim.Venue
import OptiTrade.Sim.Walk
import OptiTrade.Strategy.Arithmetic
import OptiTrade.Strategy.Averages
import OptiTrade.Strategy.Desk
import OptiTrade.Strategy.Discipline
import OptiTrade.Strategy.MicropriceMaker
import OptiTrade.Strategy.Pacing
import OptiTrade.Strategy.Quoting
import OptiTrade.Strategy.Reading
import OptiTrade.Strategy.Strategy
import OptiTrade.Strategy.Takers
import OptiTrade.Synthetic.Clean
import OptiTrade.Synthetic.Generators
import OptiTrade.Synthetic.Invariant
import OptiTrade.Synthetic.Market
import OptiTrade.Synthetic.Messages
import OptiTrade.Synthetic.Names
import OptiTrade.Synthetic.Shadow
import OptiTrade.Synthetic.Stages
import OptiTrade.Synthetic.Stream
