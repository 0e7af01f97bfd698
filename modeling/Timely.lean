import Timely.ActivationRuns
import Timely.Activations
import Timely.Acyclic
import Timely.Allocation
import Timely.AntichainAlgebra
import Timely.Balance
import Timely.BatchCalls
import Timely.BatchLogger
import Timely.BatchOverflow
import Timely.Bookkeeping
import Timely.Broadcast
import Timely.Builder
import Timely.Capability
import Timely.CapabilityRuns
import Timely.Capture
import Timely.ChangeBatch
import Timely.Channels
import Timely.Circulation
import Timely.Cluster
import Timely.Composition
import Timely.CouldResultIn
import Timely.DefaultCycles
import Timely.Discipline
import Timely.Duration
import Timely.Emptiness
import Timely.Enforcement
import Timely.EventReader
import Timely.Exactness
import Timely.Exchange
import Timely.Extract
import Timely.Fpga.Counters
import Timely.Fpga.Frames
import Timely.Fpga.Replies
import Timely.Fpga.Steps
import Timely.Fpga.Wrapper
import Timely.Frontier
import Timely.FrontierCalls
import Timely.FrontierOverflow
import Timely.GenericCapabilities
import Timely.GenericOperator
import Timely.GenericRuns
import Timely.GenericSafety
import Timely.GenericSessions
import Timely.GhostCredits
import Timely.Incomplete
import Timely.IndexRuns
import Timely.Indices
import Timely.Input
import Timely.InputOperator
import Timely.Interface
import Timely.Internals
import Timely.Lasting
import Timely.Ledger
import Timely.Library.BinarySearch
import Timely.Library.CheckedAddition
import Timely.Library.Contribution
import Timely.Library.Cycles
import Timely.Library.Elimination
import Timely.Library.Grounded
import Timely.Library.Grouped
import Timely.Library.Interaction
import Timely.Library.Justification
import Timely.Library.Keyed
import Timely.Library.Minimal
import Timely.Library.Pipeline
import Timely.Library.PriorityQueue
import Timely.Library.Propagation
import Timely.Library.Run
import Timely.Library.Saturation
import Timely.Library.Since
import Timely.Library.Sorted
import Timely.Library.StableSort
import Timely.Library.Tally
import Timely.Library.Words
import Timely.Location
import Timely.Logging
import Timely.LoopBalance
import Timely.Mirrored
import Timely.NestedFrontiers
import Timely.Network.Channels
import Timely.Network.Delivery
import Timely.Network.Handshakes
import Timely.Network.Mail
import Timely.Network.MailArrivals
import Timely.Network.MailSteps
import Timely.Network.MergeQueue
import Timely.Network.MessageHeader
import Timely.Network.ProcessChannels
import Timely.Network.Promises
import Timely.Network.RecvLoop
import Timely.Network.Routes
import Timely.Network.SendLoop
import Timely.Network.SharedQueue
import Timely.Network.SharedSlices
import Timely.Network.Sockets
import Timely.Network.TcpAllocator
import Timely.Network.Transport
import Timely.Network.Wiring
import Timely.Notificator
import Timely.NotificatorCounts
import Timely.NotificatorForEach
import Timely.NotificatorRuns
import Timely.NotificatorSessions
import Timely.Operators.Aggregate
import Timely.Operators.Delay
import Timely.Operators.Notify
import Timely.Operators.Reclock
import Timely.Operators.Stash
import Timely.Operators.StateMachine
import Timely.Order
import Timely.OutputBuffers
import Timely.Owners
import Timely.Parking
import Timely.Probe
import Timely.ProbeRuns
import Timely.Progcaster
import Timely.Projection
import Timely.Propagate
import Timely.Pullers
import Timely.Pushers
import Timely.Quiescence
import Timely.Refinement
import Timely.Reorganize
import Timely.Replay
import Timely.Routing
import Timely.Safety
import Timely.Schedule
import Timely.Sequencer
import Timely.SequencerOrder
import Timely.ShutDown
import Timely.SlabRuns
import Timely.Sort.BatchedVec
import Timely.Sort.Calls
import Timely.Sort.Lsb
import Timely.Sort.Msb
import Timely.Sort.MsbOrder
import Timely.Sort.MsbSwc
import Timely.Sort.RadixKey
import Timely.Sort.Shuffling
import Timely.Sort.SwcBuffer
import Timely.Sort.WholeLines
import Timely.Sort.Writes
import Timely.Statements
import Timely.Subgraph
import Timely.SubgraphBuilder
import Timely.SubgraphFrame
import Timely.SubgraphSteps
import Timely.Summaries
import Timely.SummaryPaths
import Timely.Synchronization
import Timely.Termination
import Timely.Timestamp
import Timely.Tracker
import Timely.TrackerCalls
import Timely.TrackerIndices
import Timely.TrackerOverflow
import Timely.WakeUps
import Timely.WellWired
import Timely.Wiring
import Timely.Withholding
import Timely.Worklist
import Timely.WrapperWakes
